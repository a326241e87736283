import Sepp.Library.Realize
import Sepp.Spec.Event

/-!
# The life of a job

What the events do to one job. A job is inserted, waits until it is leased, and a lease ends with
its ack, with a retry, or with the job given up; a dead letter is put back in line or discarded.
Every other event leaves the job alone. A run of the store is a run of each of its jobs.

## Main definitions

* `JobStep` — the steps of one job.

## Main results

* `Step.job`, `jobs_of_trace` — a run of events is a run of each job.
-/

namespace Sepp

variable [Prost]

/-- The steps of the job `id`; `none` is a job that the store does not know. -/
inductive JobStep (id : String) : Option JobState → Event → Option JobState → Prop
  | other {x : Option JobState} {e : Event} (he : e.jobId? ≠ some id) : JobStep id x e x
  | insert {job : PreparedJob} {now : Stamp} (hq : FitsPrefix job.req.queue) (hid : job.id = id) :
      JobStep id none (.insert job now) (some (job.fresh hq now))
  | lease {js : JobState} {attempt : UInt32} {expires : Int64} (hplace : js.place = .ready attempt) :
      JobStep id (some js) (.lease (js.deliveredJob id attempt expires) expires)
        (some { js with place := .leased attempt expires })
  | ack {js : JobState} {attempt : UInt32} {expires : Int64}
      (hplace : js.place = .leased attempt expires) :
      JobStep id (some js) (.ack id js.content.queue attempt) none
  | retry {js : JobState} {attempt : UInt32} {expires : Int64}
      (hplace : js.place = .leased attempt expires) (hleft : attempt < js.content.maxAttempts)
      (delayed : Option Int64) :
      JobStep id (some js) (.retry id js.content.queue attempt delayed)
        (some { js with place := .retried attempt delayed })
  | extend {js : JobState} {attempt : UInt32} {expires : Int64}
      (hplace : js.place = .leased attempt expires) (expires' : Int64) :
      JobStep id (some js) (.extend id attempt expires')
        (some { js with place := .leased attempt expires' })
  | promote {js : JobState} {attempt : UInt32} {deadline now : Int64}
      (hplace : js.place = .scheduled attempt deadline) (hdue : ¬ now < deadline) :
      JobStep id (some js) (.promote id js.content.queue now)
        (some { js with place := .ready attempt })
  | redeliver {js : JobState} {attempt : UInt32} {expires now : Int64}
      (hplace : js.place = .leased attempt expires) (hdue : ¬ now < expires)
      (hleft : attempt < js.content.maxAttempts) :
      JobStep id (some js) (.redeliver id js.content.queue now)
        (some { js with place := .ready (attempt + 1) })
  | keep {js : JobState} {attempt : UInt32} {failedAt : Int64} {cause : DeadLetterCause}
      (hgiven : js.GivenUp attempt failedAt cause) (reason : Option String) :
      JobStep id (some js) (.bury id js.content.queue attempt failedAt cause reason true)
        (some { js with place := .dead attempt failedAt cause reason })
  | drop {js : JobState} {attempt : UInt32} {failedAt : Int64} {cause : DeadLetterCause}
      (hgiven : js.GivenUp attempt failedAt cause) (reason : Option String) :
      JobStep id (some js) (.bury id js.content.queue attempt failedAt cause reason false) none
  | requeue {js : JobState} {attempt : UInt32} {failedAt : Int64} {cause : DeadLetterCause}
      {reason : Option String} (hplace : js.place = .dead attempt failedAt cause reason)
      (now : Stamp) :
      JobStep id (some js) (.requeue id js.content.queue (js.deadKey id failedAt) now)
        (some (js.requeued now))
  | discard {js : JobState} {attempt : UInt32} {failedAt : Int64} {cause : DeadLetterCause}
      {reason : Option String} (hplace : js.place = .dead attempt failedAt cause reason) :
      JobStep id (some js) (.discard id js.content.queue (js.deadKey id failedAt)
        (js.deadLetter id attempt failedAt cause reason)) none
  | purge {js : JobState} {attempt : UInt32}
      (hplace : js.place = .ready attempt ∨ ∃ deadline, js.place = .scheduled attempt deadline) :
      JobStep id (some js) (.purge id js.content.queue) none

theorem JobStep.setJob {a : Image} {id : String} {js : JobState} {x : Option JobState} {e : Event}
    (hjob : a.jobs id = some js) (h : JobStep id (some js) e x) :
    JobStep id (a.jobs id) e ((a.setJob id x).jobs id) := by
  rwa [Image.setJob_jobs, Function.update_self, hjob]

/-- A step of the store is a step of each job. -/
theorem Step.job {a a' : Image} {e : Event} (h : Step a e a') (id : String) :
    JobStep id (a.jobs id) e (a'.jobs id) := by
  by_cases hid : e.jobId? = some id
  swap
  · rw [h.jobs_of_ne hid]
    exact .other hid
  cases h with
  | hit | full | closed | forget | purgeDedup | close | reopen | lapse | append => cases hid
  | insert hq hnew =>
    obtain rfl := Option.some.inj hid
    rw [Image.rememberJob_jobs, Image.setJob_jobs, Function.update_self, hnew]
    exact .insert hq rfl
  | @lease id' js attempt expires hjob hplace =>
    obtain rfl : id' = id := Option.some.inj hid
    exact .setJob hjob (.lease hplace)
  | ack hjob hplace =>
    obtain rfl := Option.some.inj hid
    exact .setJob hjob (.ack hplace)
  | retry hjob hplace hleft delayed =>
    obtain rfl := Option.some.inj hid
    exact .setJob hjob (.retry hplace hleft delayed)
  | extend hjob hplace expires' =>
    obtain rfl := Option.some.inj hid
    exact .setJob hjob (.extend hplace expires')
  | promote hjob hplace hdue =>
    obtain rfl := Option.some.inj hid
    exact .setJob hjob (.promote hplace hdue)
  | redeliver hjob hplace hdue hleft =>
    obtain rfl := Option.some.inj hid
    exact .setJob hjob (.redeliver hplace hdue hleft)
  | bury hjob cause hgiven reason kept =>
    obtain rfl := Option.some.inj hid
    cases kept with
    | true => exact .setJob hjob (.keep hgiven reason)
    | false => exact .setJob hjob (.drop hgiven reason)
  | requeue hjob hplace now =>
    obtain rfl := Option.some.inj hid
    exact .setJob hjob (.requeue hplace now)
  | discard hjob hplace =>
    obtain rfl := Option.some.inj hid
    exact .setJob hjob (.discard hplace)
  | purge hjob hplace =>
    obtain rfl := Option.some.inj hid
    exact .setJob hjob (.purge hplace)

/-- A run of the store is a run of each job. -/
theorem jobs_of_trace {a a' : Image} {evs : List Event} (h : Trace Step a evs a') (id : String) :
    Trace (JobStep id) (a.jobs id) evs (a'.jobs id) := by
  induction h with
  | nil => exact Trace.nil _
  | cons hstep _ ih => exact Trace.cons (hstep.job id) ih

end Sepp
