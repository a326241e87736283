import Sepp.Api.Leases
import Sepp.Run.Admission
import Sepp.Wire.Codec

/-!
# From a request to a prepared job

`commit_validated` of `src/queue_server.rs`, `JobLimits::resolve` of `src/op.rs` and
`Storage::prepare_jobs` of `src/storage.rs`. A request that was admitted under one configuration is
prepared under the one that is live by then, with the dedup window of the boot configuration.
Whatever was reloaded in between, the prepared jobs keep what the storage layer relies on.

The job ids are random and enter as a sequence; so does the trace context of the span that the
request runs in.

## Main definitions

* `JobLimits.resolve`, `prepareJobs`, `commitValidated`.
* `NameFits`, `PreparedJob.Sound` — what the storage layer relies on.

## Main results

* `commitValidated_sound` — what is prepared is sound, and the operations that are proposed with it
  are those that runs are made of.
-/

namespace Sepp

/-- `JobLimits::resolve`. -/
def JobLimits.resolve (req : EnqueueRequest) (live boot : QueueRegistry) : JobLimits :=
  let eff := live.effective req.queue
  { priority := req.priority.getD eff.defaultPriority
    maxAttempts := min (req.maxAttempts.getD eff.defaultMaxAttempts) eff.maxAttemptsCeiling
    dedupWindowMs := boot.dedupWindowMs req.queue
    maxQueueDepth := eff.maxQueueDepth }

/-- `PreparedJob::new`, with the id that is drawn for the job. -/
def PreparedJob.new (id : String) (req : EnqueueRequest) (live boot : QueueRegistry) :
    PreparedJob where
  id := id
  req := req
  limits := .resolve req live boot

/-- `Storage::prepare_jobs`: the registry is loaded once for the batch. -/
def prepareJobs (newV4 : ℕ → String) (reqs : List EnqueueRequest) (live boot : QueueRegistry) :
    List PreparedJob :=
  reqs.mapIdx fun i req => PreparedJob.new (newV4 i) req live boot

/-- A request without a trace context takes that of the current span. -/
def EnqueueRequest.fillTraceContext (current : Option TraceContext) (req : EnqueueRequest) :
    EnqueueRequest :=
  if req.traceContext.isNone then { req with traceContext := current } else req

/-- `commit_validated` and `commit_validated_atomic`, up to the operation that is proposed. -/
def commitValidated (newV4 : ℕ → String) (current : Option TraceContext)
    (valid : List EnqueueRequest) (live boot : QueueRegistry) : List PreparedJob :=
  prepareJobs newV4 (valid.map (EnqueueRequest.fillTraceContext current)) live boot

/-! ### What the storage layer relies on -/

/-- The name fits the length prefix of the keys, and is read back from every key. -/
structure NameFits (queue : String) : Prop where
  le : byteLen queue ≤ 65535
  reads : ∀ rest, readQueue (queuePrefix queue ++ rest) = some queue

theorem nameFits_of_le {queue : String} (h : byteLen queue ≤ 65535) : NameFits queue :=
  ⟨h, fun rest => readQueue_append rest h⟩

/-- A prepared job is within the ranges of the storage layer. -/
structure PreparedJob.Sound (job : PreparedJob) (live : QueueRegistry) : Prop where
  queue : 1 ≤ byteLen job.req.queue ∧ NameFits job.req.queue
  priority : job.limits.priority ≤ 9
  maxAttempts : 1 ≤ job.limits.maxAttempts ∧
    job.limits.maxAttempts ≤ (live.effective job.req.queue).maxAttemptsCeiling
  dedupWindowMs : 1 ≤ job.limits.dedupWindowMs

/-! ### Prepared jobs -/

@[simp]
theorem EnqueueRequest.queue_fillTraceContext (current : Option TraceContext)
    (req : EnqueueRequest) : (req.fillTraceContext current).queue = req.queue := by
  rw [fillTraceContext]
  split_ifs <;> rfl

theorem JobLimits.resolve_fillTraceContext (current : Option TraceContext) (req : EnqueueRequest)
    (live boot : QueueRegistry) :
    JobLimits.resolve (req.fillTraceContext current) live boot = .resolve req live boot := by
  rw [EnqueueRequest.fillTraceContext]
  split_ifs <;> rfl

theorem mem_commitValidated {newV4 : ℕ → String} {current : Option TraceContext}
    {valid : List EnqueueRequest} {live boot : QueueRegistry} {job : PreparedJob}
    (h : job ∈ commitValidated newV4 current valid live boot) :
    ∃ req ∈ valid, job.req = req.fillTraceContext current ∧
      job.limits = JobLimits.resolve req live boot := by
  obtain ⟨i, hi, rfl⟩ := List.mem_mapIdx.mp h
  obtain ⟨req, hreq, heq⟩ := List.mem_map.mp (List.getElem_mem hi)
  refine ⟨req, hreq, heq.symm, ?_⟩
  change JobLimits.resolve _ live boot = _
  rw [← heq, JobLimits.resolve_fillTraceContext]

theorem one_le_byteLen {s : String} (h : s ≠ "") : 1 ≤ byteLen s := by
  rw [byteLen, Nat.one_le_iff_ne_zero, ne_eq, List.length_eq_zero_iff]
  exact fun hnil => h (asBytes_injective hnil)

section Sound

variable [Prost] {classified live boot : Config} {registry : QueueRegistry}
  {valid : List EnqueueRequest} {newV4 : ℕ → String} {current : Option TraceContext}

omit [Prost] in
/-- The limits that are resolved for a well-formed request are in range. -/
theorem JobLimits.resolve_bounds {req : EnqueueRequest} (hwf : req.WellFormed) (hlive : live.Valid)
    (hboot : boot.Valid) {limits : JobLimits}
    (h : limits = .resolve req (.fromConfig live) (.fromConfig boot)) :
    limits.priority ≤ 9 ∧ 1 ≤ limits.maxAttempts ∧
      limits.maxAttempts ≤ ((QueueRegistry.fromConfig live).effective req.queue).maxAttemptsCeiling ∧
      1 ≤ limits.dedupWindowMs := by
  have heff := QueueRegistry.effective_valid req.queue hlive
  have hdedup := (QueueRegistry.effective_valid req.queue hboot).dedupWindowMs
  subst h
  simp only [JobLimits.resolve, QueueRegistry.dedupWindowMs_eq]
  refine ⟨?_, ?_, Std.min_le_right, hdedup⟩
  · cases hpriority : req.priority with
    | none => exact heff.defaultPriority
    | some p => exact hwf.priority p hpriority
  · have hrequested : 1 ≤ req.maxAttempts.getD
        ((QueueRegistry.fromConfig live).effective req.queue).defaultMaxAttempts := by
      cases hattempts : req.maxAttempts with
      | none => exact heff.defaultMaxAttempts
      | some m => exact hwf.maxAttempts m hattempts
    exact Std.le_min_iff.mpr ⟨hrequested, heff.maxAttemptsCeiling⟩

/-- What `classify_enqueue` accepts is well formed, and its queue has a name that fits. -/
theorem nameFits_of_classifyEnqueue {req : EnqueueRequest} {strictQueues : Bool} {now : Int64}
    (hclassified : classified.Valid)
    (h : classifyEnqueue req registry strictQueues (.fromConfig classified) now = .ok ()) :
    req.WellFormed ∧ NameFits req.queue := by
  rw [classifyEnqueue] at h
  cases hvalid : Validate.enqueueRequest req with
  | error message =>
    rw [hvalid] at h
    cases h
  | ok u =>
    simp only [hvalid] at h
    split_ifs at h
    have hfits := (checkEnqueueLimits_ok_iff.mp h).1
    exact ⟨Validate.enqueueRequest_ok_iff.mp hvalid,
      nameFits_of_le (hfits.queue.trans hclassified.maxQueueNameBytes_le)⟩

omit [Prost] in
/-- A batch of sound jobs is an operation that a run may go on with. -/
theorem PreparedJob.Sound.admitted {jobs : List PreparedJob} {registry : QueueRegistry}
    (h : ∀ job ∈ jobs, job.Sound registry) {now : Int64} (hnow : 0 ≤ now.toInt)
    (result : Except Status OpOutcome) :
    Call.WellFormed (.answered (.enqueue jobs now) result) ∧
      Call.WellFormed (.answered (.enqueueAtomic jobs now) result) ∧
      Call.Admitted (.answered (.enqueue jobs now) result) ∧
      Call.Admitted (.answered (.enqueueAtomic jobs now) result) := by
  have hstamp : ∀ stamp ∈ some now, 0 ≤ stamp.toInt := by
    intro stamp hstamp
    rw [← Option.some.inj hstamp]
    exact hnow
  have hfits : ∀ job ∈ jobs, FitsPrefix job.req.queue := fun job hjob => (h job hjob).queue.2.le
  have hlimits : ∀ job ∈ jobs, 1 ≤ job.limits.dedupWindowMs.toInt ∧ job.limits.priority ≤ 9 :=
    fun job hjob => ⟨Int64.le_iff_toInt_le.mp (h job hjob).dedupWindowMs, (h job hjob).priority⟩
  exact ⟨⟨hnow, hfits⟩, ⟨hnow, hfits⟩, ⟨hstamp, hlimits⟩, ⟨hstamp, hlimits⟩⟩

/-- Whatever is reloaded between its steps, admission establishes what the storage layer relies
on: the operations that are proposed are those that runs are made of. -/
theorem commitValidated_sound (hclassified : classified.validate = .ok ())
    (hlive : live.validate = .ok ()) (hboot : boot.validate = .ok ())
    (hvalid : ∀ req ∈ valid, ∃ now, classifyEnqueue req registry classified.strictQueues
      (.fromConfig classified) now = .ok ()) :
    ((commitValidated newV4 current valid (.fromConfig live) (.fromConfig boot)).map
      PreparedJob.req = valid.map (EnqueueRequest.fillTraceContext current)) ∧
    (∀ job ∈ commitValidated newV4 current valid (.fromConfig live) (.fromConfig boot),
      job.Sound (.fromConfig live)) ∧
    (∀ job ∈ commitValidated newV4 current valid (.fromConfig live) (.fromConfig boot),
      ∀ job' ∈ commitValidated newV4 current valid (.fromConfig live) (.fromConfig boot),
        job.req.queue = job'.req.queue → job.limits.maxQueueDepth = job'.limits.maxQueueDepth) ∧
    (∀ (durationNormalized : Duration → Duration) (req : ReserveRequest) (op : Op),
      resolveReserve durationNormalized req registry classified.strictQueues
        (.fromConfig classified) = .ok op → ∀ queue ∈ req.queues, NameFits queue) ∧
    (∀ q ∈ classified.queues, NameFits q.name) ∧
    ∀ (now : Int64) (result : Except Status OpOutcome), 0 ≤ now.toInt →
      let jobs := commitValidated newV4 current valid (.fromConfig live) (.fromConfig boot)
      Call.WellFormed (.answered (.enqueue jobs now) result) ∧
        Call.WellFormed (.answered (.enqueueAtomic jobs now) result) ∧
        Call.Admitted (.answered (.enqueue jobs now) result) ∧
        Call.Admitted (.answered (.enqueueAtomic jobs now) result) := by
  have hclassified := Config.validate_ok_iff.mp hclassified
  have hlive := Config.validate_ok_iff.mp hlive
  have hboot := Config.validate_ok_iff.mp hboot
  have hsound : ∀ job ∈ commitValidated newV4 current valid (.fromConfig live) (.fromConfig boot),
      job.Sound (.fromConfig live) := by
    intro job hjob
    obtain ⟨req, hreq, heq, hlimits⟩ := mem_commitValidated hjob
    obtain ⟨now, haccepted⟩ := hvalid req hreq
    obtain ⟨hwf, hname⟩ := nameFits_of_classifyEnqueue hclassified haccepted
    obtain ⟨hpriority, hone, hceiling, hdedup⟩ := JobLimits.resolve_bounds hwf hlive hboot hlimits
    have hqueue : job.req.queue = req.queue := by
      rw [heq, EnqueueRequest.queue_fillTraceContext]
    rw [← hqueue] at hname hceiling
    refine ⟨⟨one_le_byteLen ?_, hname⟩, hpriority, ⟨hone, hceiling⟩, hdedup⟩
    rw [hqueue]
    exact hwf.queue.ne_empty
  refine ⟨?_, hsound, fun job hjob job' hjob' hqueue => ?_,
    fun durationNormalized req op h queue hqueue => ?_, fun q hq => ?_,
    fun now result hnow => PreparedJob.Sound.admitted hsound hnow result⟩
  · refine List.ext_getElem (by simp [commitValidated, prepareJobs]) fun i hi hi' => ?_
    simp [commitValidated, prepareJobs, PreparedJob.new]
  · obtain ⟨req, -, heq, hlimits⟩ := mem_commitValidated hjob
    obtain ⟨req', -, heq', hlimits'⟩ := mem_commitValidated hjob'
    rw [heq, heq', EnqueueRequest.queue_fillTraceContext,
      EnqueueRequest.queue_fillTraceContext] at hqueue
    rw [hlimits, hlimits', JobLimits.resolve, JobLimits.resolve, hqueue]
  · obtain ⟨⟨⟩, -, h⟩ := except_bind_eq_ok h
    obtain ⟨⟨⟩, -, h⟩ := except_bind_eq_ok h
    obtain ⟨⟨⟩, hnames, -⟩ := except_bind_eq_ok h
    exact nameFits_of_le
      ((checkQueueNames_ok hnames queue hqueue).trans hclassified.maxQueueNameBytes_le)
  · exact nameFits_of_le ((hclassified.queues q hq).name_le.trans hclassified.maxQueueNameBytes_le)

end Sound

/-- A configuration that lowers the ceiling of the attempts. -/
def fewAttempts : Config :=
  { queues := [{ name := "mail", maxAttemptsCeiling := some 2, defaultMaxAttempts := some 1 }] }

/-- A job that asks for three attempts. -/
def threeAttempts : EnqueueRequest where
  queue := "mail"
  jobType := "send"
  maxAttempts := some 3

open WireFormat in
/-- The job was classified before the ceiling was lowered, and is prepared after it. -/
theorem commitValidated_sound_threeAttempts :
    (∀ job ∈ commitValidated (fun _ => "a") none [threeAttempts] (.fromConfig fewAttempts)
        (.fromConfig {}), job.Sound (.fromConfig fewAttempts)) ∧
      (commitValidated (fun _ => "a") none [threeAttempts] (.fromConfig fewAttempts)
        (.fromConfig {})).map (fun job => job.limits.maxAttempts) = [2] := by
  have hdefault : ({} : Config).validate = .ok () := by decide
  have hclassify : ∀ req ∈ [threeAttempts], ∃ now, classifyEnqueue req (.fromConfig {})
      ({} : Config).strictQueues (.fromConfig {}) now = .ok () := by
    rintro req hreq
    rw [List.mem_singleton.mp hreq]
    exact ⟨1000, by decide⟩
  have hfew : fewAttempts.validate = .ok () := by decide
  exact ⟨(commitValidated_sound hdefault hfew hdefault hclassify).2.1, by decide⟩

end Sepp
