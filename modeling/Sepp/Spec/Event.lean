import Sepp.Spec.Image

/-!
# Events of the store

What operations do to the abstract state, one event at a time. An event is enabled in some states
only, and carries what its caller sees of it: the delivered job of a lease, the record of a
discarded dead letter. A job of an enqueue is always answered by an event: it is inserted, or it
hits the record of its idempotency key, or it is turned away.

## Main definitions

* `PreparedJob.fresh` — the state of a job right after its insertion.
* `Event`, `Step` — the events and when they happen.
* `Event.writes`, `Event.readies` — what the record of the cycle must say about an event.
-/

namespace Sepp

/-! ### A job right after its insertion -/

namespace PreparedJob

/-- The content of the job that a request asks for. -/
def content (job : PreparedJob) (hq : FitsPrefix job.req.queue) : Content where
  queue := ⟨job.req.queue, hq⟩
  jobType := job.req.jobType
  payload := job.req.payload
  priority := job.limits.priority
  maxAttempts := job.limits.maxAttempts
  custom := job.req.custom
  traceContext := job.req.traceContext

/-- Scheduled, when the request asks for a time to come; ready otherwise. -/
def firstPlace [Prost] (job : PreparedJob) (now : Int64) : Place :=
  match job.req.scheduledAt.map timestampToMillis with
  | some at_ => if now < at_ then .scheduled 1 at_ else .ready 1
  | none => .ready 1

/-- The state of a job right after its insertion. -/
def fresh [Prost] (job : PreparedJob) (hq : FitsPrefix job.req.queue) (now : Stamp) :
    JobState where
  content := job.content hq
  enqueuedAt := now
  scheduledAt := job.req.scheduledAt
  place := job.firstPlace now

/-- The dedup record of a job inserted at `now`. -/
def record (job : PreparedJob) (now : Int64) : DedupState where
  enqueuedAt := now
  deadline := saturatingAdd now job.limits.dedupWindowMs
  jobId := job.id

end PreparedJob

/-- The record of an idempotency key still answers at `now`. -/
def DedupState.Live (d : DedupState) (now : Int64) : Prop := now < d.deadline

namespace Image

/-- No record of the job's idempotency key answers at `now`. -/
def Unseen (a : Image) (job : PreparedJob) (hq : FitsPrefix job.req.queue) (now : Int64) : Prop :=
  ∀ key d, job.req.idempotencyKey = some key → a.dedup (⟨job.req.queue, hq⟩, key) = some d →
    ¬ d.Live now

/-- The queue refuses new jobs at `now`. -/
def Closing (a : Image) (queue : String) (now : Int64) : Prop :=
  ∃ deadline, a.closing queue = some deadline ∧ now < deadline

/-- The dedup record that an insertion writes, if the job has a key. -/
def rememberJob (a : Image) (job : PreparedJob) (hq : FitsPrefix job.req.queue) (now : Int64) :
    Image :=
  match job.req.idempotencyKey with
  | some key => a.setDedup (⟨job.req.queue, hq⟩, key) (some (job.record now))
  | none => a

@[simp]
theorem rememberJob_jobs (a : Image) (job : PreparedJob) (hq : FitsPrefix job.req.queue)
    (now : Int64) : (a.rememberJob job hq now).jobs = a.jobs := by
  rw [rememberJob]
  split <;> rfl

end Image

/-! ### Events -/

/-- One change of the store, or one answer that changes nothing. -/
inductive Event where
  | insert (job : PreparedJob) (now : Int64)
  | hit (job : PreparedJob) (now : Int64) (jobId : String)
  | full (job : PreparedJob) (now : Int64)
  | closed (job : PreparedJob) (now : Int64)
  | lease (job : Job) (expires : Int64)
  | ack (id queue : String) (attempt : UInt32)
  | retry (id queue : String) (attempt : UInt32) (delayed : Option Int64)
  | extend (id : String) (attempt : UInt32) (expires : Int64)
  | promote (id queue : String) (now : Int64)
  | redeliver (id queue : String) (now : Int64)
  | bury (id queue : String) (attempt : UInt32) (failedAt : Int64) (cause : DeadLetterCause)
      (reason : Option String) (kept : Bool)
  | requeue (id queue : String) (key : Bytes) (now : Int64)
  | discard (id queue : String) (key : Bytes) (record : DeadLetterRecord)
  | purge (id queue : String)
  | forget (name : DedupName) (now : Int64)
  | purgeDedup (name : DedupName)
  | close (queue : String) (deadline : Int64)
  | reopen (queue : String)
  | lapse (now : Int64)
  | append (entry : Int64 × AuditRecord)

/-- When a job on an attempt may be given up, by the cause that its dead letter states. -/
def JobState.GivenUp (js : JobState) (attempt : UInt32) (now : Int64) : DeadLetterCause → Prop
  | .unspecified => False
  | .admin => js.place = .ready attempt ∨ ∃ deadline, js.place = .scheduled attempt deadline
  | .rejected => ∃ expires, js.place = .leased attempt expires
  | .attemptsExhausted =>
    js.content.maxAttempts ≤ attempt ∧ ∃ expires, js.place = .leased attempt expires
  | .leaseExpired =>
    js.content.maxAttempts ≤ attempt ∧
      ∃ expires, js.place = .leased attempt expires ∧ ¬ now < expires

/-- The place of a job after a failed attempt: ready again, or scheduled for the retry. -/
def Place.retried (attempt : UInt32) : Option Int64 → Place
  | none => .ready (attempt + 1)
  | some deadline => .scheduled (attempt + 1) deadline

/-- A dead letter put back in line. -/
def JobState.requeued (js : JobState) (now : Stamp) : JobState where
  content := js.content
  enqueuedAt := now
  scheduledAt := none
  place := .ready 1

section Step

variable [Prost]

/-- The events that are enabled in a state, and the states they lead to. -/
inductive Step : Image → Event → Image → Prop
  | insert {a : Image} {job : PreparedJob} {now : Stamp} (hq : FitsPrefix job.req.queue)
      (hnew : a.jobs job.id = none) (hunseen : a.Unseen job hq now)
      (hopen : ¬ a.Closing job.req.queue now) :
      Step a (.insert job now)
        ((a.setJob job.id (some (job.fresh hq now))).rememberJob job hq now)
  | hit {a : Image} {job : PreparedJob} {now : Int64} {key : String} {d : DedupState}
      (hq : FitsPrefix job.req.queue) (hkey : job.req.idempotencyKey = some key)
      (hd : a.dedup (⟨job.req.queue, hq⟩, key) = some d) (hlive : d.Live now) :
      Step a (.hit job now d.jobId) a
  | full {a : Image} {job : PreparedJob} {now : Int64} (hq : FitsPrefix job.req.queue)
      (hunseen : a.Unseen job hq now) : Step a (.full job now) a
  | closed {a : Image} {job : PreparedJob} {now : Int64} (hclosing : a.Closing job.req.queue now) :
      Step a (.closed job now) a
  | lease {a : Image} {id : String} {js : JobState} {attempt : UInt32} {expires : Int64}
      (hjob : a.jobs id = some js) (hplace : js.place = .ready attempt) :
      Step a (.lease (js.deliveredJob id attempt expires) expires)
        (a.setJob id (some { js with place := .leased attempt expires }))
  | ack {a : Image} {id : String} {js : JobState} {attempt : UInt32} {expires : Int64}
      (hjob : a.jobs id = some js) (hplace : js.place = .leased attempt expires) :
      Step a (.ack id js.content.queue attempt) (a.setJob id none)
  | retry {a : Image} {id : String} {js : JobState} {attempt : UInt32} {expires : Int64}
      (hjob : a.jobs id = some js) (hplace : js.place = .leased attempt expires)
      (hleft : attempt < js.content.maxAttempts) (delayed : Option Int64) :
      Step a (.retry id js.content.queue attempt delayed)
        (a.setJob id (some { js with place := .retried attempt delayed }))
  | extend {a : Image} {id : String} {js : JobState} {attempt : UInt32} {expires : Int64}
      (hjob : a.jobs id = some js) (hplace : js.place = .leased attempt expires)
      (expires' : Int64) :
      Step a (.extend id attempt expires')
        (a.setJob id (some { js with place := .leased attempt expires' }))
  | promote {a : Image} {id : String} {js : JobState} {attempt : UInt32} {deadline now : Int64}
      (hjob : a.jobs id = some js) (hplace : js.place = .scheduled attempt deadline)
      (hdue : ¬ now < deadline) :
      Step a (.promote id js.content.queue now)
        (a.setJob id (some { js with place := .ready attempt }))
  | redeliver {a : Image} {id : String} {js : JobState} {attempt : UInt32} {expires now : Int64}
      (hjob : a.jobs id = some js) (hplace : js.place = .leased attempt expires)
      (hdue : ¬ now < expires) (hleft : attempt < js.content.maxAttempts) :
      Step a (.redeliver id js.content.queue now)
        (a.setJob id (some { js with place := .ready (attempt + 1) }))
  | bury {a : Image} {id : String} {js : JobState} {attempt : UInt32} {failedAt : Int64}
      (hjob : a.jobs id = some js) (cause : DeadLetterCause)
      (hgiven : js.GivenUp attempt failedAt cause) (reason : Option String) (kept : Bool) :
      Step a (.bury id js.content.queue attempt failedAt cause reason kept)
        (a.setJob id
          (if kept then some { js with place := .dead attempt failedAt cause reason } else none))
  | requeue {a : Image} {id : String} {js : JobState} {attempt : UInt32} {failedAt : Int64}
      {cause : DeadLetterCause} {reason : Option String} (hjob : a.jobs id = some js)
      (hplace : js.place = .dead attempt failedAt cause reason) (now : Stamp) :
      Step a (.requeue id js.content.queue (js.deadKey id failedAt) now)
        (a.setJob id (some (js.requeued now)))
  | discard {a : Image} {id : String} {js : JobState} {attempt : UInt32} {failedAt : Int64}
      {cause : DeadLetterCause} {reason : Option String} (hjob : a.jobs id = some js)
      (hplace : js.place = .dead attempt failedAt cause reason) :
      Step a (.discard id js.content.queue (js.deadKey id failedAt)
        (js.deadLetter id attempt failedAt cause reason)) (a.setJob id none)
  | purge {a : Image} {id : String} {js : JobState} {attempt : UInt32} (hjob : a.jobs id = some js)
      (hplace : js.place = .ready attempt ∨ ∃ deadline, js.place = .scheduled attempt deadline) :
      Step a (.purge id js.content.queue) (a.setJob id none)
  | forget {a : Image} {name : DedupName} {d : DedupState} {now : Int64}
      (hd : a.dedup name = some d) (hdue : ¬ d.Live now) :
      Step a (.forget name now) (a.setDedup name none)
  | purgeDedup {a : Image} {name : DedupName} {d : DedupState} (hd : a.dedup name = some d) :
      Step a (.purgeDedup name) (a.setDedup name none)
  | close {a : Image} (queue : String) (deadline : Int64) :
      Step a (.close queue deadline) (a.setClosing queue (some deadline))
  | reopen {a : Image} (queue : String) : Step a (.reopen queue) (a.setClosing queue none)
  | lapse {a : Image} (now : Int64) :
      Step a (.lapse now)
        { a with closing := fun queue => (a.closing queue).filter fun deadline => now < deadline }
  | append {a : Image} (entry : Int64 × AuditRecord) : Step a (.append entry) (a.appendAudit entry)

end Step

namespace Event

/-- The event changes the store. -/
def writes : Event → Bool
  | hit .. | full .. | closed .. => false
  | _ => true

/-- The record that the event hands to its caller. -/
def record? : Event → Option DeadLetterRecord
  | discard _ _ _ record => some record
  | _ => none

/-- The job that the event changes. -/
def jobId? : Event → Option String
  | insert job _ => some job.id
  | lease job _ => some job.id
  | ack id .. | retry id .. | extend id .. | promote id .. | redeliver id .. | bury id ..
  | requeue id .. | discard id .. | purge id _ => some id
  | _ => none

/-- The queue that the event names. -/
def queue? : Event → Option String
  | insert job _ => some job.req.queue
  | lease job _ => some job.queue
  | ack _ queue _ | retry _ queue .. | promote _ queue _ | redeliver _ queue _ | bury _ queue ..
  | requeue _ queue .. | discard _ queue .. | purge _ queue | close queue _ | reopen queue =>
    some queue
  | forget name _ | purgeDedup name => some name.1
  | hit .. | full .. | closed .. | extend .. | lapse .. | append .. => none

/-- The event is about tombstones. -/
def closes : Event → Bool
  | close .. | reopen .. | lapse .. => true
  | _ => false

/-- The queue that the event puts a ready job into. -/
def readies [Prost] : Event → Option String
  | insert job now =>
    match job.firstPlace now with
    | .ready _ => some job.req.queue
    | _ => none
  | retry _ queue _ none => some queue
  | promote _ queue _ => some queue
  | redeliver _ queue _ => some queue
  | requeue _ queue _ _ => some queue
  | _ => none

end Event

/-! ### What a step leaves alone -/

namespace Step

variable [Prost] {a a' : Image} {e : Event}

/-- A step changes the job it is about, and no other. -/
theorem jobs_of_ne (h : Step a e a') {id : String} (hid : e.jobId? ≠ some id) :
    a'.jobs id = a.jobs id := by
  have hne : ∀ {id' : String}, some id' ≠ some id → id ≠ id' := by
    rintro id' h rfl
    exact h rfl
  cases h with
  | insert hq =>
    rw [Image.rememberJob_jobs]
    exact Function.update_of_ne (hne hid) ..
  | lease | ack | retry | extend | promote | redeliver | bury | requeue | discard | purge =>
    exact Function.update_of_ne (hne hid) ..
  | hit | full | closed | forget | purgeDedup | close | reopen | lapse | append => rfl

/-- A job is there because it was there before, or because it was inserted. -/
theorem jobs_ne_none (h : Step a e a') {id : String} (hid : a'.jobs id ≠ none) :
    a.jobs id ≠ none ∨ ∃ job now, e = .insert job now ∧ job.id = id := by
  by_cases he : e.jobId? = some id
  swap
  · exact .inl (h.jobs_of_ne he ▸ hid)
  cases h with
  | @insert job now => exact .inr ⟨job, now, rfl, Option.some.inj he⟩
  | lease hjob | ack hjob | retry hjob | extend hjob | promote hjob | redeliver hjob | bury hjob
  | requeue hjob | discard hjob | purge hjob =>
    obtain rfl := Option.some.inj he
    exact .inl fun hnone => by cases hjob.symm.trans hnone
  | hit | full | closed | forget | purgeDedup | close | reopen | lapse | append => cases he

/-- An event that does not write changes nothing. -/
theorem eq_of_silent (h : Step a e a') (hw : e.writes = false) : a' = a := by
  cases h with
  | hit | full | closed => rfl
  | insert | lease | ack | retry | extend | promote | redeliver | bury | requeue | discard | purge
  | forget | purgeDedup | close | reopen | lapse | append => cases hw

theorem closing_eq (h : Step a e a') (hc : e.closes = false) : a'.closing = a.closing := by
  cases h with
  | insert hq =>
    unfold Image.rememberJob
    split <;> rfl
  | close | reopen | lapse => cases hc
  | lease | ack | retry | extend | promote | redeliver | bury | requeue | discard | purge | hit
  | full | closed | forget | purgeDedup | append => rfl

end Step

end Sepp
