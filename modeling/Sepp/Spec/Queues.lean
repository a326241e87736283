import Sepp.Library.Census
import Sepp.Library.Realize
import Sepp.Spec.Event
import Sepp.Spec.Frame

/-!
# Whose queue a row is of

The queue of a row is in its key, or, for the rows that only name a job, in the record of the job.
When the jobs and the dedup records of a queue are the same before and after, so are all its rows.

The rows of a queue are counted by a census of its jobs and its dedup records: a job has exactly
one row in `ready`, `scheduled`, `leases` or `dead_letter`, and a dedup record has one timer.

## Main definitions

* `Rows.queueOf`, `Rows.SameQueue`, `Rows.owned`.
* `Image.SameQueue`, `Image.owned`, `Image.live`.

## Main results

* `Represents.sameQueue`.
* `Represents.owned_eq`, `Represents.liveDepth_eq`.
-/

open Std

namespace Sepp

namespace Rows

variable [Prost]

/-- The queue in the record of a job. -/
def recordQueue (rows : Rows) (jobId : Bytes) : Option String :=
  rows.jobs[jobId]?.bind fun stored =>
    match JobValue.decode stored with
    | .ok (queue, _) => some queue
    | .error _ => none

/-- The queue that a row belongs to. -/
def queueOf (rows : Rows) : KeyspaceName → Bytes → Option String
  | .jobs, key | .payloads, key | .inflight, key => rows.recordQueue key
  | .ready, key | .dedup, key => readQueue key
  | .scheduled, key | .leases, key => (TimerKey.jobIdOf key).bind rows.recordQueue
  | .deadLetter, key => DeadLetterKey.queueOf key
  | .dedupTimers, key => DedupTimerKey.queueOf key
  | .metadata, key => closingQueue key
  | .audit, _ => none

/-- The queue has the same rows. -/
def SameQueue (rows rows' : Rows) (queue : String) : Prop :=
  ∀ (ks : KeyspaceName) (key value : Bytes),
    (rows.get ks)[key]? = some value ∧ rows.queueOf ks key = some queue ↔
      (rows'.get ks)[key]? = some value ∧ rows'.queueOf ks key = some queue

/-- The rows of a keyspace that belong to the queue. -/
def countIn (rows : Rows) (queue : String) (ks : KeyspaceName) : ℕ :=
  Tally.count (fun key _ => rows.queueOf ks key) (rows.get ks) queue

/-- The rows of a queue that a purge has to remove, and its leases. -/
def owned (rows : Rows) (queue : String) : ℕ :=
  rows.countIn queue .ready + rows.countIn queue .scheduled + rows.countIn queue .leases +
    rows.countIn queue .deadLetter + rows.countIn queue .dedupTimers

end Rows

/-- The jobs, the dedup records and the tombstone of the queue are the same. -/
structure Image.SameQueue (a a' : Image) (queue : String) : Prop where
  jobs : ∀ id js, js.content.queue = queue → (a.jobs id = some js ↔ a'.jobs id = some js)
  dedup : ∀ name : DedupName, name.1 = queue → a.dedup name = a'.dedup name
  closing : a.closing queue = a'.closing queue

/-- The job is of the queue. -/
def JobState.InQueue (queue _id : String) (js : JobState) : Prop := js.content.queue = queue

/-- The idempotency key is of the queue. -/
def DedupState.InQueue (queue : String) (name : DedupName) (_ : DedupState) : Prop :=
  name.1 = queue

/-- The keyspace that holds the place of a job. -/
def Place.keyspace? : Place → Option KeyspaceName
  | limbo => none
  | ready _ => some .ready
  | scheduled _ _ => some .scheduled
  | leased _ _ => some .leases
  | dead .. => some .deadLetter

/-- The jobs of the queue that are in a keyspace. -/
noncomputable def Image.placed (a : Image) (queue : String) (ks : KeyspaceName) : ℕ :=
  census (fun _ js => js.content.queue = queue ∧ js.place.keyspace? = some ks) a.jobs

/-- The jobs of the queue that are not dead. -/
noncomputable def Image.live (a : Image) (queue : String) : ℕ :=
  census (fun _ js => js.content.queue = queue ∧ ¬ js.place.IsDead) a.jobs

/-- The jobs and the dedup records of the queue. -/
noncomputable def Image.owned (a : Image) (queue : String) : ℕ :=
  census (JobState.InQueue queue) a.jobs + census (DedupState.InQueue queue) a.dedup

section Queues

variable [Prost] {a a' : Image} {rows rows' : Rows} {idx idx' : Indexes} {queue : String}
  {ks : KeyspaceName} {key value : Bytes}

/-! ### The queue of a row -/

theorem Represents.recordQueue_eq (h : Represents a rows idx) {id : String} {js : JobState}
    (hJ : a.jobs id = some js) (hp : ¬ js.place.IsDead) :
    rows.recordQueue (asBytes id) = some js.content.queue.1 := by
  rw [Rows.recordQueue, h.jobs.get_jobs hJ hp, Option.bind_some,
    JobValue.decode_encode js.content.queue.2]

/-- A row of a job is of the queue of the job. -/
theorem Represents.queueOf_job (h : Represents a rows idx) {id : String} {js : JobState}
    (hJ : a.jobs id = some js) (hrow : JobState.row ks id js = some (key, value)) :
    rows.queueOf ks key = some js.content.queue.1 := by
  have hlive : ∀ {attempt : UInt32} {t : Int64}, js.place = .scheduled attempt t ∨
      js.place = .leased attempt t → ¬ js.place.IsDead := by
    rintro attempt t (hp | hp) <;> simp [hp, Place.IsDead]
  cases ks with
  | dedup | dedupTimers | metadata | audit => cases hrow
  | jobs =>
    simp only [JobState.row, JobState.jobRow] at hrow
    split_ifs at hrow with hdead
    obtain ⟨rfl, -⟩ := Prod.mk.inj (Option.some.inj hrow)
    exact h.recordQueue_eq hJ hdead
  | payloads =>
    simp only [JobState.row, JobState.payloadRow] at hrow
    split_ifs at hrow with hdead
    obtain ⟨payload, -, heq⟩ := Option.map_eq_some_iff.mp hrow
    obtain ⟨rfl, -⟩ := Prod.mk.inj heq
    exact h.recordQueue_eq hJ hdead
  | inflight =>
    simp only [JobState.row, JobState.inflightRow] at hrow
    split at hrow
    · rename_i hp
      obtain ⟨rfl, -⟩ := Prod.mk.inj (Option.some.inj hrow)
      exact h.recordQueue_eq hJ (hlive (.inr hp))
    · cases hrow
  | ready =>
    simp only [JobState.row, JobState.readyRow] at hrow
    split at hrow
    · obtain ⟨rfl, -⟩ := Prod.mk.inj (Option.some.inj hrow)
      exact ReadyKey.readQueue_encode js.content.queue.2
    · cases hrow
  | scheduled =>
    simp only [JobState.row, JobState.scheduledRow] at hrow
    split at hrow
    · rename_i hp
      obtain ⟨rfl, -⟩ := Prod.mk.inj (Option.some.inj hrow)
      rw [Rows.queueOf, TimerKey.jobIdOf_encode, Option.bind_some]
      exact h.recordQueue_eq hJ (hlive (.inl hp))
    · cases hrow
  | leases =>
    simp only [JobState.row, JobState.leaseRow] at hrow
    split at hrow
    · rename_i hp
      obtain ⟨rfl, -⟩ := Prod.mk.inj (Option.some.inj hrow)
      rw [Rows.queueOf, TimerKey.jobIdOf_encode, Option.bind_some]
      exact h.recordQueue_eq hJ (hlive (.inr hp))
    · cases hrow
  | deadLetter =>
    simp only [JobState.row, JobState.deadRow] at hrow
    split at hrow
    · obtain ⟨rfl, -⟩ := Prod.mk.inj (Option.some.inj hrow)
      exact DeadLetterKey.queueOf_encode js.content.queue.2
    · cases hrow

/-- A row of an idempotency key is of the queue of the key. -/
theorem queueOf_dedup (rows : Rows) {name : DedupName} {d : DedupState}
    (hrow : DedupState.row ks name d = some (key, value)) :
    rows.queueOf ks key = some name.1.1 := by
  cases ks with
  | dedup =>
    obtain ⟨rfl, -⟩ := Prod.mk.inj (Option.some.inj hrow)
    exact readQueue_append _ name.1.2
  | dedupTimers =>
    obtain ⟨rfl, -⟩ := Prod.mk.inj (Option.some.inj hrow)
    rw [Rows.queueOf, DedupTimerKey.queueOf, dedupTimer, DedupTimerKey.dedupKeyOf_encode,
      Option.bind_some]
    exact readQueue_append _ name.1.2
  | jobs | payloads | inflight | ready | scheduled | leases | deadLetter | metadata | audit =>
    cases hrow

/-- The rows of the queue in a keyspace of jobs are the rows of its jobs. -/
theorem Represents.get_job_iff (h : Represents a rows idx) (hks : ks.ofJobs = true) :
    (rows.get ks)[key]? = some value ∧ rows.queueOf ks key = some queue ↔
      ∃ id js, a.jobs id = some js ∧ js.content.queue = queue ∧
        JobState.row ks id js = some (key, value) := by
  constructor
  · rintro ⟨hget, hqueue⟩
    obtain ⟨id, -, hid⟩ := (h.tracksJobs hks).row_of_get hget
    obtain ⟨js, hJ, hrow⟩ := (rowsOf_eq_some_iff _).mp hid
    rw [h.queueOf_job hJ hrow] at hqueue
    exact ⟨id, js, hJ, Option.some.inj hqueue, hrow⟩
  · rintro ⟨id, js, hJ, rfl, hrow⟩
    exact ⟨(h.tracksJobs hks).get_of ((rowsOf_eq_some_iff _).mpr ⟨js, hJ, hrow⟩),
      h.queueOf_job hJ hrow⟩

/-- The rows of the queue in a keyspace of idempotency keys are the rows of its keys. -/
theorem Represents.get_dedup_iff (h : Represents a rows idx) (hks : ks.ofDedup = true) :
    (rows.get ks)[key]? = some value ∧ rows.queueOf ks key = some queue ↔
      ∃ (name : DedupName) (d : DedupState), name.1 = queue ∧ a.dedup name = some d ∧
        DedupState.row ks name d = some (key, value) := by
  constructor
  · rintro ⟨hget, hqueue⟩
    obtain ⟨name, -, hname⟩ := (h.tracksDedup hks).row_of_get hget
    obtain ⟨d, hd, hrow⟩ := (rowsOf_eq_some_iff _).mp hname
    rw [queueOf_dedup rows hrow] at hqueue
    exact ⟨name, d, Option.some.inj hqueue, hd, hrow⟩
  · rintro ⟨name, d, rfl, hd, hrow⟩
    exact ⟨(h.tracksDedup hks).get_of ((rowsOf_eq_some_iff _).mpr ⟨d, hd, hrow⟩),
      queueOf_dedup rows hrow⟩

/-- The row of the queue in `meta` is its tombstone. -/
theorem Represents.get_meta_iff (h : Represents a rows idx) :
    rows.metadata[key]? = some value ∧ closingQueue key = some queue ↔
      ∃ deadline, a.closing queue = some deadline ∧ key = closingKey queue ∧
        value = KeyWriter.i64 deadline := by
  have htracks := h.metadata.metadata
  constructor
  · rintro ⟨hget, hqueue⟩
    obtain ⟨owner, hown, hrow⟩ := htracks.row_of_get hget
    rw [metaOwner, hqueue] at hown
    obtain rfl := Option.some.inj hown
    obtain ⟨deadline, hclosing, heq⟩ := Option.map_eq_some_iff.mp hrow
    obtain ⟨rfl, rfl⟩ := Prod.mk.inj heq
    exact ⟨deadline, hclosing, rfl, rfl⟩
  · rintro ⟨deadline, hclosing, rfl, rfl⟩
    refine ⟨htracks.get_of (i := some queue) ?_, closingQueue_closingKey queue⟩
    rw [metaRow, hclosing, Option.map_some]

/-- A queue whose jobs, dedup records and tombstone are the same has the same rows. -/
theorem Represents.sameQueue (h : Represents a rows idx) (h' : Represents a' rows' idx')
    (hsame : a.SameQueue a' queue) : rows.SameQueue rows' queue := by
  intro ks key value
  cases hjobs : ks.ofJobs with
  | true =>
    rw [h.get_job_iff hjobs, h'.get_job_iff hjobs]
    refine exists_congr fun id => exists_congr fun js => ?_
    constructor
    · rintro ⟨hJ, hqueue, hrow⟩
      exact ⟨(hsame.jobs id js hqueue).mp hJ, hqueue, hrow⟩
    · rintro ⟨hJ, hqueue, hrow⟩
      exact ⟨(hsame.jobs id js hqueue).mpr hJ, hqueue, hrow⟩
  | false =>
    cases hdedup : ks.ofDedup with
    | true =>
      rw [h.get_dedup_iff hdedup, h'.get_dedup_iff hdedup]
      refine exists_congr fun name => exists_congr fun d => and_congr_right fun hname => ?_
      rw [hsame.dedup name hname]
    | false =>
      cases ks with
      | metadata =>
        refine h.get_meta_iff.trans (Iff.trans ?_ h'.get_meta_iff.symm)
        rw [hsame.closing]
      | audit => simp [Rows.queueOf]
      | jobs | payloads | inflight | ready | scheduled | leases | deadLetter => cases hjobs
      | dedup | dedupTimers => cases hdedup

/-! ### How many rows a queue has -/

theorem Represents.finite_jobs (h : Represents a rows idx) : { id | a.jobs id ≠ none }.Finite := by
  refine (h.jobs.body.jobs.finite.union h.jobs.dead.rows.finite).subset fun id hid => ?_
  obtain ⟨js, hJ⟩ := Option.ne_none_iff_exists'.mp hid
  by_cases hdead : js.place.IsDead
  · refine .inr ?_
    rw [Set.mem_ofPred_eq, rowsOf_of_eq_some _ hJ]
    cases hp : js.place with
    | dead => simp [JobState.deadRow, hp]
    | limbo | ready | scheduled | leased => simp [hp, Place.IsDead] at hdead
  · refine .inl ?_
    rw [Set.mem_ofPred_eq, rowsOf_of_eq_some _ hJ, JobState.jobRow, if_neg hdead]
    simp

theorem Represents.finite_dedup (h : Represents a rows idx) :
    { name | a.dedup name ≠ none }.Finite := by
  refine h.dedup.dedup.finite.subset fun name hname => ?_
  obtain ⟨d, hd⟩ := Option.ne_none_iff_exists'.mp hname
  rw [Set.mem_ofPred_eq, rowsOf_of_eq_some _ hd, dedupRow]
  simp

omit [Prost] in
/-- The entries of a timer index that belong to the queue. -/
theorem TimerIndex.count_eq {index : TimerIndex} {J : String → Option JobState}
    {own : Bytes → Option String} {entry : String → JobState → Option (Bytes × String)}
    (hcounted : index.Counted) (htracks : Tracks own index.keys (rowsOf entry J))
    (hentry : ∀ id js, (∃ key, entry id js = some (key, js.content.queue.1)) ∨ entry id js = none)
    (queue : String) :
    index.byQueue[queue]?.getD 0 =
      census (fun id js => js.content.queue = queue ∧ (entry id js).isSome = true) J := by
  rw [hcounted.getD_eq, htracks.count_eq_census]
  refine census_congr fun id js _ => ?_
  rcases hentry id js with ⟨key, hkey⟩ | hnone
  · simp [hkey, timerOwner]
  · simp [hnone]

theorem Represents.ready_eq (h : Represents a rows idx) (queue : String) :
    idx.ready.byQueue[queue]?.getD 0 = a.placed queue .ready := by
  rw [h.jobs.ready.counted.getD_eq, h.jobs.ready.entries.count_eq_census]
  refine census_congr fun id js _ => ?_
  have howner : readQueue (js.readyKey id) = some js.content.queue.1 :=
    ReadyKey.readQueue_encode js.content.queue.2
  cases hp : js.place <;> simp [JobState.readyEntry, hp, Place.keyspace?, readyOwner, howner]

theorem Represents.scheduled_eq (h : Represents a rows idx) (queue : String) :
    idx.scheduled.byQueue[queue]?.getD 0 = a.placed queue .scheduled := by
  rw [TimerIndex.count_eq h.jobs.scheduled.counted h.jobs.scheduled.entries]
  · refine census_congr fun id js _ => ?_
    cases hp : js.place <;> simp [JobState.scheduledEntry, hp, Place.keyspace?]
  · intro id js
    cases hp : js.place <;> simp [JobState.scheduledEntry, hp]

theorem Represents.leases_eq (h : Represents a rows idx) (queue : String) :
    idx.leases.byQueue[queue]?.getD 0 = a.placed queue .leases := by
  rw [TimerIndex.count_eq h.jobs.lease.counted h.jobs.lease.entries]
  · refine census_congr fun id js _ => ?_
    cases hp : js.place <;> simp [JobState.leaseEntry, hp, Place.keyspace?]
  · intro id js
    cases hp : js.place <;> simp [JobState.leaseEntry, hp]

theorem Represents.dead_eq (h : Represents a rows idx) (queue : String) :
    idx.deadLetter.byQueue[queue]?.getD 0 = a.placed queue .deadLetter := by
  rw [TimerIndex.count_eq h.jobs.dead.counted h.jobs.dead.entries]
  · refine census_congr fun id js _ => ?_
    cases hp : js.place <;> simp [JobState.deadEntry, hp, Place.keyspace?]
  · intro id js
    cases hp : js.place <;> simp [JobState.deadEntry, hp]

/-- The counters of the indexes count the live jobs of the queue. -/
theorem Represents.liveDepth_eq (h : Represents a rows idx) (queue : String) :
    idx.liveDepth queue = a.live queue := by
  rw [Indexes.liveDepth, h.ready_eq, h.scheduled_eq, h.leases_eq, Image.placed, Image.placed,
    Image.placed, ← census_or h.finite_jobs, ← census_or h.finite_jobs]
  · refine census_congr fun id js hJ => ?_
    have hsettled := h.settled id js hJ
    cases hp : js.place <;> simp_all [Place.keyspace?, Place.IsDead]
  · rintro id js - (⟨-, hp⟩ | ⟨-, hp⟩) ⟨-, hp'⟩ <;> cases hp.symm.trans hp'
  · rintro id js - ⟨-, hp⟩ ⟨-, hp'⟩
    cases hp.symm.trans hp'

/-- The rows of the queue in the keyspace of a place are the jobs that are there. -/
theorem Represents.countIn_eq (h : Represents a rows idx) (queue : String)
    (hks : ks = .ready ∨ ks = .scheduled ∨ ks = .leases ∨ ks = .deadLetter) :
    rows.countIn queue ks = a.placed queue ks := by
  have hjobs : ks.ofJobs = true := by rcases hks with rfl | rfl | rfl | rfl <;> rfl
  rw [Rows.countIn, (h.tracksJobs hjobs).count_eq_census]
  refine census_congr fun id js hJ => ?_
  have hplace : (∃ key value, JobState.row ks id js = some (key, value)) ↔
      js.place.keyspace? = some ks := by
    rcases hks with rfl | rfl | rfl | rfl <;> cases hp : js.place <;>
      simp [JobState.row, JobState.readyRow, JobState.scheduledRow, JobState.leaseRow,
        JobState.deadRow, hp, Place.keyspace?]
  constructor
  · rintro ⟨key, value, hrow, hqueue⟩
    rw [h.queueOf_job hJ hrow] at hqueue
    exact ⟨Option.some.inj hqueue, hplace.mp ⟨key, value, hrow⟩⟩
  · rintro ⟨rfl, hp⟩
    obtain ⟨key, value, hrow⟩ := hplace.mpr hp
    exact ⟨key, value, hrow, h.queueOf_job hJ hrow⟩

/-- The records of the queue are its live jobs. -/
theorem Represents.countIn_jobs (h : Represents a rows idx) (queue : String) :
    rows.countIn queue .jobs = a.live queue := by
  have htracks := h.tracksJobs (show KeyspaceName.jobs.ofJobs = true from rfl)
  rw [Rows.countIn, htracks.count_eq_census]
  refine census_congr fun id js hJ => ?_
  constructor
  · rintro ⟨key, value, hrow, hqueue⟩
    rw [h.queueOf_job hJ hrow] at hqueue
    refine ⟨Option.some.inj hqueue, fun hdead => ?_⟩
    rw [JobState.row, JobState.jobRow, if_pos hdead] at hrow
    cases hrow
  · rintro ⟨rfl, hlive⟩
    obtain ⟨row, hrow⟩ : ∃ row, JobState.row .jobs id js = some row := by
      rw [JobState.row, JobState.jobRow, if_neg hlive]
      exact ⟨_, rfl⟩
    exact ⟨row.1, row.2, hrow, h.queueOf_job hJ hrow⟩

theorem Represents.countIn_dedupTimers (h : Represents a rows idx) (queue : String) :
    rows.countIn queue .dedupTimers = census (DedupState.InQueue queue) a.dedup := by
  have htracks := h.tracksDedup (show KeyspaceName.dedupTimers.ofDedup = true from rfl)
  rw [Rows.countIn, htracks.count_eq_census]
  refine census_congr fun name d _ => ?_
  constructor
  · rintro ⟨key, value, hrow, hqueue⟩
    rw [queueOf_dedup rows hrow] at hqueue
    exact Option.some.inj hqueue
  · rintro rfl
    have hrow : DedupState.row .dedupTimers name d =
        some (dedupTimer name d.deadline, []) := rfl
    exact ⟨_, _, hrow, queueOf_dedup rows hrow⟩

/-- The rows of the queue are its jobs and its dedup records. -/
theorem Represents.owned_eq (h : Represents a rows idx) (queue : String) :
    rows.owned queue = a.owned queue := by
  rw [Rows.owned, h.countIn_eq queue (.inl rfl), h.countIn_eq queue (.inr (.inl rfl)),
    h.countIn_eq queue (.inr (.inr (.inl rfl))), h.countIn_eq queue (.inr (.inr (.inr rfl))),
    h.countIn_dedupTimers, Image.owned, Image.placed, Image.placed, Image.placed, Image.placed,
    ← census_or h.finite_jobs, ← census_or h.finite_jobs, ← census_or h.finite_jobs]
  · congr 1
    refine census_congr fun id js hJ => ?_
    have hsettled := h.settled id js hJ
    cases hp : js.place <;> simp_all [Place.keyspace?, JobState.InQueue]
  · rintro id js - ((⟨-, hp⟩ | ⟨-, hp⟩) | ⟨-, hp⟩) ⟨-, hp'⟩ <;> cases hp.symm.trans hp'
  · rintro id js - (⟨-, hp⟩ | ⟨-, hp⟩) ⟨-, hp'⟩ <;> cases hp.symm.trans hp'
  · rintro id js - ⟨-, hp⟩ ⟨-, hp'⟩
    cases hp.symm.trans hp'

end Queues

/-! ### Events of one queue -/

namespace Image.SameQueue

variable {a b c : Image} {queue : String}

theorem refl (a : Image) (queue : String) : a.SameQueue a queue :=
  ⟨fun _ _ _ => Iff.rfl, fun _ _ => rfl, rfl⟩

theorem trans (h : a.SameQueue b queue) (h' : b.SameQueue c queue) : a.SameQueue c queue where
  jobs id js hqueue := (h.jobs id js hqueue).trans (h'.jobs id js hqueue)
  dedup name hqueue := (h.dedup name hqueue).trans (h'.dedup name hqueue)
  closing := h.closing.trans h'.closing

/-- A job that is of another queue before and after. -/
theorem setJob {id : String} {x : Option JobState}
    (hbefore : ∀ js, a.jobs id = some js → js.content.queue.1 ≠ queue)
    (hafter : ∀ js, x = some js → js.content.queue.1 ≠ queue) :
    a.SameQueue (a.setJob id x) queue := by
  refine ⟨fun id' js hqueue => ?_, fun _ _ => rfl, rfl⟩
  rw [Image.setJob_jobs]
  by_cases heq : id' = id
  · rw [heq, Function.update_self]
    exact ⟨fun hJ => absurd hqueue (hbefore js hJ), fun hx => absurd hqueue (hafter js hx)⟩
  · rw [Function.update_of_ne heq]

theorem setDedup {name : DedupName} {x : Option DedupState} (hne : name.1.1 ≠ queue) :
    a.SameQueue (a.setDedup name x) queue := by
  refine ⟨fun _ _ _ => Iff.rfl, fun name' hqueue => ?_, rfl⟩
  rw [Image.setDedup_dedup, Function.update_of_ne]
  rintro rfl
  exact hne hqueue

theorem setClosing {other : String} {x : Option Int64} (hne : queue ≠ other) :
    a.SameQueue (a.setClosing other x) queue :=
  ⟨fun _ _ _ => Iff.rfl, fun _ _ => rfl, (Function.update_of_ne hne ..).symm⟩

theorem rememberJob {job : PreparedJob} {hq : FitsPrefix job.req.queue} {now : Int64}
    (hne : job.req.queue ≠ queue) : a.SameQueue (a.rememberJob job hq now) queue := by
  unfold Image.rememberJob
  split
  · exact setDedup hne
  · exact refl a queue

end Image.SameQueue

section Events

variable [Prost] {a a' : Image} {e : Event} {queue other : String}

/-- An event of one queue leaves the others alone. -/
theorem Step.sameQueue (h : Step a e a') (he : e.queue? = some queue) (hne : other ≠ queue) :
    a.SameQueue a' other := by
  have hsame : ∀ {id : String} {js : JobState} {x : Option JobState}, a.jobs id = some js →
      js.content.queue.1 = queue → (∀ js', x = some js' → js'.content = js.content) →
      a.SameQueue (a.setJob id x) other := by
    rintro id js x hJ rfl hx
    refine Image.SameQueue.setJob (fun js' hJ' heq => ?_) fun js' hx' heq => ?_
    · obtain rfl := Option.some.inj (hJ.symm.trans hJ')
      exact hne heq.symm
    · rw [hx js' hx'] at heq
      exact hne heq.symm
  cases h with
  | @insert job now hq hnew =>
    obtain rfl := Option.some.inj he
    refine Image.SameQueue.trans (.setJob (fun js hJ => ?_) fun js hjs heq => ?_)
      (.rememberJob hne.symm)
    · cases hnew.symm.trans hJ
    · rw [← Option.some.inj hjs] at heq
      exact hne heq.symm
  | lease hJ | retry hJ | promote hJ | redeliver hJ | requeue hJ =>
    refine hsame hJ (Option.some.inj he) fun js' hjs => ?_
    obtain rfl := Option.some.inj hjs
    rfl
  | @bury _ _ _ _ hJ _ _ _ kept =>
    refine hsame hJ (Option.some.inj he) fun js' hjs => ?_
    split_ifs at hjs
    rw [← Option.some.inj hjs]
  | ack hJ | discard hJ | purge hJ =>
    exact hsame hJ (Option.some.inj he) fun js' hjs => by cases hjs
  | forget | purgeDedup =>
    exact .setDedup fun heq => hne (heq.symm.trans (Option.some.inj he))
  | close | reopen => exact .setClosing (Option.some.inj he ▸ hne)
  | hit | full | closed | extend | lapse | append => cases he

/-- A run whose events are of one queue, or change nothing, leaves the others alone. -/
theorem sameQueue_of_trace {evs : List Event} (h : Trace Step a evs a')
    (hevs : ∀ e ∈ evs, e.queue? = some queue ∨ e.writes = false) (hne : other ≠ queue) :
    a.SameQueue a' other := by
  refine h.preserves (P := fun b => a.SameQueue b other) (fun b e c he hstep hb => ?_)
    (.refl a other)
  rcases hevs e he with hqueue | hsilent
  · exact hb.trans (hstep.sameQueue hqueue hne)
  · rwa [hstep.eq_of_silent hsilent]

end Events

end Sepp
