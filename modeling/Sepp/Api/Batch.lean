import Sepp.Api.Prepare
import Sepp.Run.Rounds

/-!
# Enqueueing a batch

The handler `enqueue_batch` of `src/queue_server.rs`. It classifies every job of the request,
sends the accepted ones to storage as one operation, and fills what storage answers into the slots
of the accepted jobs. The source takes the answers from an iterator and panics when it runs out.

The registry may be reloaded between the classification and the preparation of a batch, and the
clock is read for each job; both are data of `BatchEnv`.

## Main definitions

* `BatchEnv.enqueueBatch`, `mergeSlots`, `respondBatch` — the handler, up to the operation that it
  sends and from the reply that it gets.
* `OwnAnswer` — what an answer of storage says about its job.
* `BatchEnv.ResultOf` — the result that belongs to a job of the request.

## Main results

* `BatchEnv.respondBatch_results` — a batch that storage answers has one result for each job, in
  order.
-/

open Std

namespace Sepp

/-! ### The handler -/

/-- `JobResult`. The `oneof` of `JobRejection` is split by who gives the reason. -/
inductive JobResult where
  | success (resp : EnqueueResponse)
  | rejection (reason : ClassifyRejection ⊕ JobRejection)
deriving DecidableEq, Repr

/-- The result that the answer of storage is turned into. -/
def JobResult.ofStored : EnqueueResult → JobResult
  | .ok resp => .success resp
  | .error reason => .rejection (.inr reason)

/-- What the handler reads beside the request. -/
structure BatchEnv where
  strictQueues : Bool
  limits : ServerLimits
  /-- The registry that the batch is classified under. -/
  registry : QueueRegistry
  /-- The clock reads of the classification, by position. -/
  clock : ℕ → Int64
  /-- The registries that the accepted jobs are prepared under. -/
  live : QueueRegistry
  boot : QueueRegistry
  newV4 : ℕ → String
  current : Option TraceContext

section Handler

variable [Prost]

namespace BatchEnv

/-- `classify_enqueue` of the job at a position. -/
def classify (env : BatchEnv) (i : ℕ) (job : EnqueueRequest) : Except ClassifyRejection Unit :=
  classifyEnqueue job env.registry env.strictQueues env.limits (env.clock i)

/-- The loop over the request: a slot for each job, filled when the job is rejected, and the jobs
that are accepted. -/
def classifyBatch (env : BatchEnv) : ℕ → List EnqueueRequest →
    List (Option JobResult) × List EnqueueRequest
  | _, [] => ([], [])
  | i, job :: jobs =>
    let (slots, valid) := env.classifyBatch (i + 1) jobs
    match env.classify i job with
    | .ok () => (none :: slots, job :: valid)
    | .error reason => (some (.rejection (.inl reason)) :: slots, valid)

/-- The accepted jobs of a request, as they are sent to storage. -/
def prepared (env : BatchEnv) (jobs : List EnqueueRequest) : List PreparedJob :=
  commitValidated env.newV4 env.current (env.classifyBatch 0 jobs).2 env.live env.boot

/-- `enqueue_batch`, up to the operation that is sent. The committer stamps the time. -/
def enqueueBatch (env : BatchEnv) (jobs : List EnqueueRequest) :
    Except Status (List (Option JobResult) × Op) := do
  refuseIf jobs.isEmpty ⟨.invalidArgument, "batch must contain at least one job"⟩
  refuseIf (env.limits.maxEnqueueBatch.toNat < jobs.length)
    ⟨.invalidArgument,
      "batch exceeds max_enqueue_batch (" ++ toString env.limits.maxEnqueueBatch ++ ")"⟩
  return ((env.classifyBatch 0 jobs).1, .enqueue (env.prepared jobs) 0)

end BatchEnv

end Handler

/-- The slots and the iterator over the answers, merged; `none` is the panic of `expect`. -/
def mergeSlots : List (Option JobResult) → List EnqueueResult → Option (List JobResult)
  | [], _ => some []
  | some result :: slots, enqueued => (mergeSlots slots enqueued).map (result :: ·)
  | none :: _, [] => none
  | none :: slots, answer :: enqueued => (mergeSlots slots enqueued).map (.ofStored answer :: ·)

/-- `enqueue_batch`, from the reply of storage. -/
def respondBatch (slots : List (Option JobResult)) :
    Except Status OpOutcome → Option (Except Status (List JobResult))
  | .error e => some (.error e)
  | .ok (.enqueue results) => (mergeSlots slots results).map .ok
  | .ok _ => some (.error ⟨.internal, "storage returned a mismatched op outcome"⟩)

/-! ### The answers of storage -/

section Storage

variable [Prost] {job : PreparedJob} {now : Int64} {s s' : TxState}

/-- What storage answers about a job: its queue is closing or full, or the record of its own key
answers, or the job is stored under its own id. -/
def OwnAnswer (now : Int64) (job : PreparedJob) (s s' : TxState) : EnqueueResult → Prop
  | .error (.queueClosing queue) =>
    queue = job.req.queue ∧ s.indexes.isClosing queue now = true
  | .error (.queueFull queue cap) =>
    queue = job.req.queue ∧ job.limits.maxQueueDepth = some cap ∧
      cap.toNat ≤ s.indexes.liveDepth queue
  | .ok ⟨jobId, true⟩ => ∃ key stored d, job.req.idempotencyKey = some key ∧
      s.rows.dedup[DedupKey.encode { queue := job.req.queue, idempotencyKey := key }]? =
        some stored ∧
      DedupValue.decode stored = some d ∧ now < d.deadline ∧ jobId = d.jobId
  | .ok ⟨jobId, false⟩ => jobId = job.id ∧
      s'.rows.jobs[asBytes job.id]? =
        some (JobValue.encode { queue := job.req.queue, job := freshJob job now })

omit [Prost] in
/-- The check of the idempotency key changes neither rows nor indexes, and a hit is the live
record of the key. -/
theorem checkDedup_ok {req : EnqueueRequest} {check : DedupCheck}
    (h : checkDedup req now s = .ok check s') :
    s'.rows = s.rows ∧ s'.indexes = s.indexes ∧ ∀ resp, check = .hit resp →
      ∃ key stored d, req.idempotencyKey = some key ∧
        s.rows.dedup[DedupKey.encode { queue := req.queue, idempotencyKey := key }]? =
          some stored ∧
        DedupValue.decode stored = some d ∧ now < d.deadline ∧ resp = ⟨d.jobId, true⟩ := by
  rw [checkDedup] at h
  cases hkey : req.idempotencyKey with
  | none =>
    simp only [hkey] at h
    cases h
    exact ⟨rfl, rfl, fun _ hhit => by cases hhit⟩
  | some key =>
    simp only [hkey, bind_run, txGet, Rows.get] at h
    cases hfault : s.faults 0 with
    | some e =>
      simp only [hfault] at h
      cases h
    | none =>
      simp only [hfault] at h
      cases hget : s.rows.dedup[DedupKey.encode { queue := req.queue, idempotencyKey := key }]? with
      | none =>
        simp only [hget] at h
        cases h
        exact ⟨rfl, rfl, fun _ hhit => by cases hhit⟩
      | some stored =>
        cases hd : DedupValue.decode stored with
        | none =>
          simp only [hget, hd] at h
          cases h
          exact ⟨rfl, rfl, fun _ hhit => by cases hhit⟩
        | some d =>
          simp only [hget, hd] at h
          split_ifs at h with hlive
          · simp only [bind_run, onCycle_run, pure_run] at h
            cases h
            refine ⟨rfl, rfl, fun resp hhit => ?_⟩
            cases hhit
            exact ⟨key, stored, d, rfl, hget, hd, hlive, rfl⟩
          · cases h
            exact ⟨rfl, rfl, fun _ hhit => by cases hhit⟩

omit [Prost] in
/-- The dedup rows of an insertion leave the job records alone. -/
theorem insertDedup_keeps_jobs (job : PreparedJob) (key : String) (now : Int64)
    (staleTimer : Option Bytes) (s : TxState) :
    ∃ t, insertDedup job key now staleTimer s = .ok () t ∧ t.rows.jobs = s.rows.jobs := by
  cases staleTimer <;> exact ⟨_, rfl, rfl⟩

/-- The place of an insertion leaves the job records alone. -/
theorem insertPlace_keeps_jobs (job : PreparedJob) (now : Int64) (s : TxState) :
    ∃ t, insertPlace job now s = .ok () t ∧ t.rows.jobs = s.rows.jobs := by
  rw [insertPlace]
  cases job.req.scheduledAt.map timestampToMillis with
  | none => exact ⟨_, rfl, rfl⟩
  | some at_ =>
    dsimp only
    split_ifs
    · exact ⟨_, rfl, rfl⟩
    · exact ⟨_, rfl, rfl⟩

/-- An insertion always goes through, and stores the job under its id. -/
theorem insertJob_ok (job : PreparedJob) (now : Int64) (staleTimer : Option Bytes) (s : TxState) :
    ∃ t, insertJob job now staleTimer s = .ok { jobId := job.id, deduplicated := false } t ∧
      t.rows.jobs[asBytes job.id]? =
        some (JobValue.encode { queue := job.req.queue, job := freshJob job now }) := by
  -- the parts after the job record and the payload
  have hend (s₁ : TxState) (dedup : TxM Unit)
      (hdedup : ∀ s₂, ∃ t, dedup s₂ = .ok () t ∧ t.rows.jobs = s₂.rows.jobs)
      (hs₁ : s₁.rows.jobs[asBytes job.id]? =
        some (JobValue.encode { queue := job.req.queue, job := freshJob job now })) :
      ∃ t, (do
          insertPlace job now
          dedup
          onCycle (Cycle.enqueued job.req.queue)
          onCycle Cycle.markDirty
          return { jobId := job.id, deduplicated := false } : TxM EnqueueResponse) s₁ =
        .ok { jobId := job.id, deduplicated := false } t ∧
      t.rows.jobs[asBytes job.id]? =
        some (JobValue.encode { queue := job.req.queue, job := freshJob job now }) := by
    obtain ⟨s₂, hplace, hjobs⟩ := insertPlace_keeps_jobs job now s₁
    obtain ⟨s₃, hkey, hjobs'⟩ := hdedup s₂
    rw [bind_run_ok hplace, bind_run_ok hkey]
    exact ⟨_, rfl, hjobs' ▸ hjobs ▸ hs₁⟩
  have hpure (s₂ : TxState) : ∃ t, (pure () : TxM Unit) s₂ = .ok () t ∧
      t.rows.jobs = s₂.rows.jobs := ⟨s₂, rfl, rfl⟩
  rw [insertJob]
  cases job.req.payload with
  | none =>
    cases job.req.idempotencyKey with
    | none => exact hend _ _ hpure ExtTreeMap.getElem?_insert_self
    | some key =>
      exact hend _ _ (insertDedup_keeps_jobs job key now staleTimer) ExtTreeMap.getElem?_insert_self
  | some payload =>
    cases job.req.idempotencyKey with
    | none => exact hend _ _ hpure ExtTreeMap.getElem?_insert_self
    | some key =>
      exact hend _ _ (insertDedup_keeps_jobs job key now staleTimer) ExtTreeMap.getElem?_insert_self

/-- The answer about a job is its own. -/
theorem enqueueOne_own {r : EnqueueResult} (h : enqueueOne now job s = .ok r s') :
    OwnAnswer now job s s' r := by
  rw [enqueueOne, bind_run_ok (getIndexes_run s)] at h
  split_ifs at h with hclosing
  · cases h
    exact ⟨rfl, hclosing⟩
  · rw [bind_run] at h
    cases hcheck : checkDedup job.req now s with
    | error e t =>
      rw [hcheck] at h
      cases h
    | ok check t =>
      simp only [hcheck] at h
      obtain ⟨-, hindexes, hhit⟩ := checkDedup_ok hcheck
      cases check with
      | hit resp =>
        cases h
        obtain ⟨key, stored, d, hkey, hget, hd, hlive, rfl⟩ := hhit resp rfl
        exact ⟨key, stored, d, hkey, hget, hd, hlive, rfl⟩
      | miss staleTimer =>
        obtain ⟨t', hinsert, hjobs⟩ := insertJob_ok job now staleTimer t
        cases hcap : job.limits.maxQueueDepth with
        | none =>
          simp only [hcap, bind_run_ok hinsert] at h
          cases h
          exact ⟨rfl, hjobs⟩
        | some cap =>
          simp only [hcap, bind_run_ok (getIndexes_run t)] at h
          split_ifs at h with hfull
          · cases h
            exact ⟨rfl, hcap, hindexes ▸ hfull⟩
          · rw [bind_run_ok hinsert] at h
            cases h
            exact ⟨rfl, hjobs⟩

/-- A caller that is answered with success has the outcome of its own operation, applied after the
commands before it. -/
theorem exists_turn_of_reply {env : CycleEnv} {server : Server} {cmds : List Command} {resp : ℕ}
    {r : OpOutcome} (h : (resp, .op (.ok r)) ∈ (runRpcCycle env server cmds).replies) :
    ∃ earlier op later run tx, cmds = earlier ++ .op op resp :: later ∧
      applyCommands env.now earlier { tx := beginCycle env server } = (none, run) ∧
      applyOp (op.stamp env.now) run.tx = .ok r tx := by
  obtain ⟨run, hrun, -, hparked⟩ := parked_of_reply h
  exact parked_of_applyCommands hrun hparked List.not_mem_nil

end Storage

/-! ### Results in the order of the request -/

section Results

variable [Prost]

namespace BatchEnv

variable (env : BatchEnv)

/-- How many jobs of the request are accepted before a position. -/
def rank (jobs : List EnqueueRequest) (i : ℕ) : ℕ := (env.classifyBatch 0 (jobs.take i)).2.length

/-- The result that belongs to the job at position `i` of a request, whose operation is applied in
the state `tx`: the reason of its classification, or the answer to the job itself after the
accepted jobs before it. -/
inductive ResultOf (jobs : List EnqueueRequest) (now : Int64) (tx : TxState) (i : ℕ)
    (job : EnqueueRequest) : JobResult → Prop
  | refused {reason : ClassifyRejection} (hrefused : env.classify i job = .error reason) :
      ResultOf jobs now tx i job (.rejection (.inl reason))
  | stored {own : PreparedJob} {before : List EnqueueResult} {s s' : TxState} {r : EnqueueResult}
      (haccepted : env.classify i job = .ok ())
      (hown : (env.prepared jobs)[env.rank jobs i]? = some own)
      (hreq : own.req = job.fillTraceContext env.current)
      (hbefore : applyEnqueue ((env.prepared jobs).take (env.rank jobs i)) now tx = .ok before s)
      (hanswer : enqueueOne now own s = .ok r s') (hmeans : OwnAnswer now own s s' r) :
      ResultOf jobs now tx i job (.ofStored r)

/-- The slots and the answers merge when there is an answer for each accepted job: a rejected job
keeps its reason, and an accepted one gets the answer at its place among the accepted. -/
theorem mergeSlots_classifyBatch {jobs : List EnqueueRequest} {start : ℕ}
    {answers : List EnqueueResult} (hlen : answers.length = (env.classifyBatch start jobs).2.length) :
    ∃ results, mergeSlots (env.classifyBatch start jobs).1 answers = some results ∧
      results.length = jobs.length ∧ ∀ i job, jobs[i]? = some job →
        (∀ reason, env.classify (start + i) job = .error reason →
          results[i]? = some (.rejection (.inl reason))) ∧
        (env.classify (start + i) job = .ok () →
          (env.classifyBatch start jobs).2[(env.classifyBatch start (jobs.take i)).2.length]? =
            some job ∧
          results[i]? = answers[(env.classifyBatch start (jobs.take i)).2.length]?.map .ofStored) := by
  induction jobs generalizing start answers with
  | nil => exact ⟨[], rfl, rfl, fun i job hjob => by cases hjob⟩
  | cons first jobs ih =>
    cases hfirst : env.classify start first with
    | error reason =>
      simp only [classifyBatch, hfirst] at hlen ⊢
      obtain ⟨results, hmerge, hresults, hall⟩ := ih hlen
      refine ⟨.rejection (.inl reason) :: results, ?_, congrArg (· + 1) hresults, fun i job hjob => ?_⟩
      · rw [mergeSlots, hmerge]
        rfl
      · cases i with
        | zero =>
          cases hjob
          refine ⟨fun reason' h => ?_, fun h => ?_⟩
          · obtain rfl := Except.error.inj (hfirst.symm.trans h)
            rfl
          · cases hfirst.symm.trans h
        | succ i =>
          have hpos : start + (i + 1) = start + 1 + i := by omega
          rw [hpos, List.take_succ_cons]
          simp only [classifyBatch, hfirst]
          exact hall i job hjob
    | ok u =>
      simp only [classifyBatch, hfirst] at hlen ⊢
      cases answers with
      | nil => cases hlen
      | cons answer answers =>
        obtain ⟨results, hmerge, hresults, hall⟩ := ih (Nat.succ.inj hlen)
        refine ⟨.ofStored answer :: results, ?_, congrArg (· + 1) hresults, fun i job hjob => ?_⟩
        · rw [mergeSlots, hmerge]
          rfl
        · cases i with
          | zero =>
            cases hjob
            refine ⟨fun reason' h => ?_, fun h => ⟨rfl, rfl⟩⟩
            cases hfirst.symm.trans h
          | succ i =>
            have hpos : start + (i + 1) = start + 1 + i := by omega
            rw [hpos, List.take_succ_cons]
            simp only [classifyBatch, hfirst]
            exact hall i job hjob

variable {env}

theorem enqueueBatch_eq_ok {jobs : List EnqueueRequest} {slots : List (Option JobResult)} {op : Op}
    (h : env.enqueueBatch jobs = .ok (slots, op)) :
    slots = (env.classifyBatch 0 jobs).1 ∧ op = .enqueue (env.prepared jobs) 0 := by
  obtain ⟨⟨⟩, -, h⟩ := except_bind_eq_ok h
  obtain ⟨⟨⟩, -, h⟩ := except_bind_eq_ok h
  obtain ⟨rfl, rfl⟩ := Prod.mk.inj (Except.ok.inj h)
  exact ⟨rfl, rfl⟩

/-- The job at a place among the prepared ones is that of the accepted request there. -/
theorem getElem?_prepared {jobs : List EnqueueRequest} {k : ℕ} {job : EnqueueRequest}
    (h : (env.classifyBatch 0 jobs).2[k]? = some job) :
    ∃ own, (env.prepared jobs)[k]? = some own ∧ own.req = job.fillTraceContext env.current := by
  refine ⟨PreparedJob.new (env.newV4 k) (job.fillTraceContext env.current) env.live env.boot, ?_,
    rfl⟩
  rw [prepared, commitValidated, prepareJobs, List.getElem?_mapIdx, List.getElem?_map, h]
  rfl

/-- A batch that storage answers has one result for each job of the request, in order, and the
result of a job is its own. -/
theorem respondBatch_results {jobs : List EnqueueRequest} {slots : List (Option JobResult)}
    {op : Op} (hsend : env.enqueueBatch jobs = .ok (slots, op)) {cenv : CycleEnv} {server : Server}
    {cmds : List Command} {resp : ℕ} {outcome : OpOutcome}
    (hchannel : ∀ cmd ∈ cmds, cmd.resp = resp → cmd = .op op resp)
    (hreply : (resp, .op (.ok outcome)) ∈ (runRpcCycle cenv server cmds).replies) :
    ∃ earlier later run answers tx results, cmds = earlier ++ .op op resp :: later ∧
      applyCommands cenv.now earlier { tx := beginCycle cenv server } = (none, run) ∧
      applyEnqueue (env.prepared jobs) cenv.now run.tx = .ok answers tx ∧
      answers.length = (env.prepared jobs).length ∧
      respondBatch slots (.ok outcome) = some (.ok results) ∧ results.length = jobs.length ∧
      ∀ i job, jobs[i]? = some job →
        ∃ result, results[i]? = some result ∧ env.ResultOf jobs cenv.now run.tx i job result := by
  obtain ⟨rfl, rfl⟩ := enqueueBatch_eq_ok hsend
  obtain ⟨earlier, op, later, run, tx, rfl, hrun, hop⟩ := exists_turn_of_reply hreply
  obtain ⟨rfl, -⟩ := Command.op.inj (hchannel (.op op resp)
    (List.mem_append_right _ List.mem_cons_self) rfl)
  rw [Op.stamp, applyOp, bind_run] at hop
  cases hanswers : applyEnqueue (env.prepared jobs) cenv.now run.tx with
  | error e t =>
    rw [hanswers] at hop
    cases hop
  | ok answers t =>
    rw [hanswers] at hop
    cases hop
    obtain ⟨hlen, hturns⟩ := mapM_turns hanswers
    have hvalid : answers.length = (env.classifyBatch 0 jobs).2.length := by
      rw [hlen, prepared, commitValidated, prepareJobs, List.length_mapIdx, List.length_map]
    obtain ⟨results, hmerge, hresults, hall⟩ := env.mergeSlots_classifyBatch hvalid
    refine ⟨earlier, later, run, answers, tx, results, rfl, hrun, hanswers, hlen, ?_, hresults,
      fun i job hjob => ?_⟩
    · rw [respondBatch, hmerge]
      rfl
    · obtain ⟨hrefused, haccepted⟩ := hall i job hjob
      rw [Nat.zero_add] at hrefused haccepted
      cases hclass : env.classify i job with
      | error reason => exact ⟨_, hrefused reason hclass, .refused hclass⟩
      | ok u =>
        obtain ⟨hmem, hresult⟩ := haccepted hclass
        obtain ⟨own, hown, hreq⟩ := getElem?_prepared hmem
        obtain ⟨s, s', r, hbefore, hanswer, hr⟩ := hturns _ own hown
        refine ⟨.ofStored r, ?_, .stored hclass hown hreq hbefore hanswer (enqueueOne_own hanswer)⟩
        rw [hresult, hr]
        rfl

end BatchEnv

end Results

/-- The outcomes that the callers of a cycle are answered with. -/
def CycleResult.succeeded (result : CycleResult) : List (ℕ × OpOutcome) :=
  result.replies.filterMap fun (resp, reply) =>
    match reply with
    | .op (.ok r) => some (resp, r)
    | _ => none

theorem CycleResult.mem_replies_of_succeeded {result : CycleResult} {resp : ℕ} {r : OpOutcome}
    (h : (resp, r) ∈ result.succeeded) : (resp, .op (.ok r)) ∈ result.replies := by
  obtain ⟨⟨resp', reply⟩, hmem, heq⟩ := List.mem_filterMap.mp h
  cases reply with
  | op r' =>
    cases r' with
    | error e => cases heq
    | ok r' =>
      cases heq
      exact hmem
  | peekKeys page => cases heq
  | queueDepths counts => cases heq

/-- A configuration with room for one job. -/
def roomForOne : Config := { queues := [{ name := "mail", maxQueueDepth := some 1 }] }

/-- What the handler reads under that configuration. -/
def roomForOneEnv : BatchEnv where
  strictQueues := roomForOne.strictQueues
  limits := .fromConfig roomForOne
  registry := .fromConfig roomForOne
  clock := fun _ => 1000
  live := .fromConfig roomForOne
  boot := .fromConfig roomForOne
  newV4 := fun i => if i = 0 then "a" else if i = 1 then "b" else "c"
  current := none

/-- A job without a queue, one with a key, one that repeats the key and one too many. -/
def fourJobs : List EnqueueRequest :=
  [{ queue := "", jobType := "send" }, { queue := "mail", jobType := "send", idempotencyKey := "k" },
    { queue := "mail", jobType := "send", idempotencyKey := "k" },
    { queue := "mail", jobType := "send" }]

open WireFormat in
/-- The cycle that the batch is sent in. -/
def fourJobsCycle : CycleResult :=
  runRpcCycle { now := 2000, metricsEnabled := false, faults := fun _ => none, commitFails := false }
    {} [.queueDepths "mail" 6, .op (.enqueue (roomForOneEnv.prepared fourJobs) 0) 7]

/-- What storage answers about the three jobs that are accepted. -/
def threeAnswers : List EnqueueResult :=
  [.ok ⟨"a", false⟩, .ok ⟨"a", true⟩, .error (.queueFull "mail" 1)]

open WireFormat in
/-- The job without a queue keeps its place among the results. -/
theorem respondBatch_results_fourJobs :
    respondBatch (roomForOneEnv.classifyBatch 0 fourJobs).1 (.ok (.enqueue threeAnswers)) =
        some (.ok [.rejection (.inl (.invalidRequest "queue must not be empty")),
          .success ⟨"a", false⟩, .success ⟨"a", true⟩,
          .rejection (.inr (.queueFull "mail" 1))]) ∧
      ∃ results : List JobResult, results.length = 4 ∧ ∀ i job, fourJobs[i]? = some job →
        ∃ tx result, results[i]? = some result ∧
          roomForOneEnv.ResultOf fourJobs 2000 tx i job result := by
  refine ⟨by decide +kernel, ?_⟩
  have hsend : roomForOneEnv.enqueueBatch fourJobs =
      .ok (_, .enqueue (roomForOneEnv.prepared fourJobs) 0) := rfl
  have hreply : (7, .op (.ok (.enqueue threeAnswers))) ∈ fourJobsCycle.replies :=
    CycleResult.mem_replies_of_succeeded (by decide +kernel)
  obtain ⟨-, -, run, -, -, results, -, -, -, -, -, hlen, hall⟩ :=
    BatchEnv.respondBatch_results hsend (by
      intro cmd hcmd hresp
      simp only [List.mem_cons, List.not_mem_nil, or_false] at hcmd
      rcases hcmd with rfl | rfl
      · cases hresp
      · rfl) hreply
  exact ⟨results, hlen, fun i job hjob => ⟨run.tx, hall i job hjob⟩⟩

end Sepp
