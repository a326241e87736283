import Sepp.Api.Batch
import Sepp.Safety.Atomic

/-!
# Enqueueing a batch as a whole

The handler `enqueue_atomic` of `src/queue_server.rs`. It classifies every job of the request and
answers with the jobs that are refused, by their positions, if there are any. Otherwise it sends all
of them to storage as one operation, which either takes them all or names the jobs that are in the
way by their positions among the jobs that it was sent. These positions are those of the request,
since nothing is sent unless every job is accepted.

The data of the handler are those of `enqueue_batch`.

## Main definitions

* `BatchEnv.enqueueAtomic`, `respondAtomic` — the handler, up to the operation that it sends and
  from the reply that it gets.
* `BatchEnv.Answers` — what an answer of storage means for the request.

## Main results

* `BatchEnv.enqueueAtomic_answers` — whatever the handler answers is about the jobs of the request,
  and a refusal has changed nothing.
-/

open Std

namespace Sepp

/-! ### The handler -/

/-- `JobValidationError`: a job by its position, and the reason. -/
structure JobValidationError where
  index : UInt32
  rejection : ClassifyRejection ⊕ JobRejection
deriving DecidableEq, Repr

/-- `EnqueueAtomicResponse`. -/
inductive AtomicResponse where
  | success (responses : List EnqueueResponse)
  | rejection (errors : List JobValidationError)
deriving DecidableEq, Repr

/-- `enqueue_atomic`, from the reply of storage. -/
def respondAtomic : Except Status OpOutcome → Except Status AtomicResponse
  | .error e => .error e
  | .ok (.enqueueAtomic (.committed responses)) => .ok (.success responses)
  | .ok (.enqueueAtomic (.rejected rejections)) =>
    .ok (.rejection (rejections.map fun (index, rejection) => ⟨index, .inr rejection⟩))
  | .ok _ => .error ⟨.internal, "storage returned a mismatched op outcome"⟩

section Handler

variable [Prost]

namespace BatchEnv

/-- The loop over the request: the jobs that are refused, and those that are accepted. -/
def classifyAtomic (env : BatchEnv) : ℕ → List EnqueueRequest →
    List JobValidationError × List EnqueueRequest
  | _, [] => ([], [])
  | i, job :: jobs =>
    let (errors, valid) := env.classifyAtomic (i + 1) jobs
    match env.classify i job with
    | .ok () => (errors, job :: valid)
    | .error reason => (⟨UInt32.ofNat i, .inl reason⟩ :: errors, valid)

/-- `enqueue_atomic`, up to its own answer or to the operation that is sent. -/
def enqueueAtomic (env : BatchEnv) (jobs : List EnqueueRequest) :
    Except Status (AtomicResponse ⊕ Op) := do
  refuseIf jobs.isEmpty ⟨.invalidArgument, "batch must contain at least one job"⟩
  refuseIf (env.limits.maxEnqueueBatch.toNat < jobs.length)
    ⟨.invalidArgument,
      "batch exceeds max_enqueue_batch (" ++ toString env.limits.maxEnqueueBatch ++ ")"⟩
  let (errors, valid) := env.classifyAtomic 0 jobs
  if !errors.isEmpty then return .inl (.rejection errors)
  else
    return .inr
      (.enqueueAtomic (commitValidated env.newV4 env.current valid env.live env.boot) 0)

/-- The refusal of a job at a position. -/
def refusal (env : BatchEnv) (job : EnqueueRequest) (i : ℕ) : Option JobValidationError :=
  match env.classify i job with
  | .ok () => none
  | .error reason => some ⟨UInt32.ofNat i, .inl reason⟩

/-- The whole request, as it is sent to storage. -/
def preparedAll (env : BatchEnv) (jobs : List EnqueueRequest) : List PreparedJob :=
  commitValidated env.newV4 env.current jobs env.live env.boot

/-! ### Classification -/

section Classification

variable {env : BatchEnv} {jobs : List EnqueueRequest} {start : ℕ}

/-- The jobs that are refused are named in the order of the request. -/
theorem classifyAtomic_fst (env : BatchEnv) (start : ℕ) (jobs : List EnqueueRequest) :
    (env.classifyAtomic start jobs).1 =
      (jobs.zipIdx start).filterMap fun (job, i) => env.refusal job i := by
  induction jobs generalizing start with
  | nil => rfl
  | cons job jobs ih =>
    rw [List.zipIdx_cons, List.filterMap_cons, ← ih]
    cases hclass : env.classify start job with
    | ok u => simp only [classifyAtomic, refusal, hclass]
    | error reason => simp only [classifyAtomic, refusal, hclass]

/-- If no job is refused, all are accepted. -/
theorem classifyAtomic_of_accepted (h : (env.classifyAtomic start jobs).1 = []) :
    (env.classifyAtomic start jobs).2 = jobs ∧
      ∀ i job, jobs[i]? = some job → env.classify (start + i) job = .ok () := by
  induction jobs generalizing start with
  | nil => exact ⟨rfl, fun i job hjob => by cases hjob⟩
  | cons first jobs ih =>
    cases hclass : env.classify start first with
    | error reason =>
      simp only [classifyAtomic, hclass] at h
      cases h
    | ok u =>
      simp only [classifyAtomic, hclass] at h ⊢
      obtain ⟨hvalid, hall⟩ := ih h
      refine ⟨congrArg (first :: ·) hvalid, fun i job hjob => ?_⟩
      cases i with
      | zero =>
        cases hjob
        exact hclass
      | succ i =>
        rw [show start + (i + 1) = start + 1 + i by omega]
        exact hall i job hjob

/-- A request fits the positions of its jobs, and the jobs that are named are those that are
refused. -/
theorem mem_classifyAtomic_iff (hlen : jobs.length ≤ UInt32.size) {e : JobValidationError} :
    e ∈ (env.classifyAtomic 0 jobs).1 ↔ ∃ job reason, jobs[e.index.toNat]? = some job ∧
      env.classify e.index.toNat job = .error reason ∧ e.rejection = .inl reason := by
  rw [classifyAtomic_fst, List.mem_filterMap]
  constructor
  · rintro ⟨⟨job, i⟩, hmem, hrefusal⟩
    have hjob := List.mem_zipIdx_iff_getElem?.mp hmem
    have hlt := (List.getElem?_eq_some_iff.mp hjob).1
    have hindex : (UInt32.ofNat i).toNat = i := UInt32.toNat_ofNat_of_lt' (by omega)
    cases hclass : env.classify i job with
    | ok u =>
      simp only [refusal, hclass] at hrefusal
      cases hrefusal
    | error reason =>
      simp only [refusal, hclass] at hrefusal
      obtain rfl := Option.some.inj hrefusal
      exact ⟨job, reason, hindex.symm ▸ hjob, hindex.symm ▸ hclass, rfl⟩
  · rintro ⟨job, reason, hjob, hclass, hreason⟩
    refine ⟨(job, e.index.toNat), List.mem_zipIdx_iff_getElem?.mpr hjob, ?_⟩
    simp only [refusal, hclass, UInt32.ofNat_toNat, ← hreason]

end Classification

/-! ### What storage answers -/

/-- The job is in the way of the batch: its queue is closing; or none of the queues is, and the
batch would push its queue past its cap. -/
def Blocks (idx : Indexes) (jobs : List PreparedJob) (now : Int64) (job : PreparedJob) :
    JobRejection → Prop
  | .queueClosing queue => queue = job.req.queue ∧ idx.isClosing queue now = true
  | .queueFull queue cap => queue = job.req.queue ∧ job.limits.maxQueueDepth = some cap ∧
      cap.toNat < idx.liveDepth queue + batchCount jobs queue ∧
      ∀ other ∈ jobs, idx.isClosing other.req.queue now = false

/-- What an answer of storage means for the request, whose operation takes the transaction from `tx`
to `tx'`: every job has its own answer after the jobs before it, or nothing has changed and exactly
the jobs that are in the way are named. -/
inductive Answers (env : BatchEnv) (jobs : List EnqueueRequest) (now : Int64) (tx tx' : TxState) :
    AtomicResponse → Prop
  | success {responses : List EnqueueResponse} (hlen : responses.length = jobs.length)
      (hown : ∀ i job, jobs[i]? = some job → ∃ own s s' resp,
        (env.preparedAll jobs)[i]? = some own ∧ own.req = job.fillTraceContext env.current ∧
        ((env.preparedAll jobs).take i).mapM (enqueueAdmitted now) tx =
          .ok (responses.take i) s ∧
        enqueueAdmitted now own s = .ok resp s' ∧ responses[i]? = some resp ∧
        OwnAnswer now own s s' (.ok resp)) :
      Answers env jobs now tx tx' (.success responses)
  | refused {errors : List JobValidationError} (hsame : tx' = tx) (hsome : errors ≠ [])
      (hnamed : ∀ e, e ∈ errors ↔ ∃ own reason, (env.preparedAll jobs)[e.index.toNat]? = some own ∧
        e.rejection = .inr reason ∧ Blocks tx.indexes (env.preparedAll jobs) now own reason) :
      Answers env jobs now tx tx' (.rejection errors)

section Storage

variable {env : BatchEnv} {jobs : List EnqueueRequest} {now : Int64} {tx tx' : TxState}

omit [Prost] in
theorem mem_listed_iff {jobs : List PreparedJob} (hlen : jobs.length ≤ UInt32.size)
    {said : PreparedJob → Option JobRejection} {index : UInt32} {reason : JobRejection} :
    (index, reason) ∈ listed jobs said ↔
      ∃ job, jobs[index.toNat]? = some job ∧ said job = some reason := by
  rw [listed, List.mem_filterMap]
  constructor
  · rintro ⟨⟨job, i⟩, hmem, hsaid⟩
    have hjob := List.mem_zipIdx_iff_getElem?.mp hmem
    have hlt := (List.getElem?_eq_some_iff.mp hjob).1
    obtain ⟨reason', hreason, heq⟩ := Option.map_eq_some_iff.mp hsaid
    obtain ⟨rfl, rfl⟩ := Prod.mk.inj heq
    rw [UInt32.toNat_ofNat_of_lt' (by omega)]
    exact ⟨job, hjob, hreason⟩
  · rintro ⟨job, hjob, hsaid⟩
    refine ⟨(job, index.toNat), List.mem_zipIdx_iff_getElem?.mpr hjob, ?_⟩
    dsimp only
    rw [hsaid, Option.map_some, UInt32.ofNat_toNat]

omit [Prost] in
/-- The jobs that the check of storage names are those in the way. -/
theorem mem_rejectionsOf_iff {jobs : List PreparedJob} (hlen : jobs.length ≤ UInt32.size)
    {idx : Indexes} {index : UInt32} {reason : JobRejection} :
    (index, reason) ∈ rejectionsOf idx jobs now ↔
      ∃ job, jobs[index.toNat]? = some job ∧ Blocks idx jobs now job reason := by
  rw [rejectionsOf]
  split_ifs with hclosing
  · rw [mem_listed_iff hlen]
    refine exists_congr fun job => and_congr_right fun hjob => ?_
    cases reason with
    | queueClosing queue =>
      rw [Option.ite_none_right_eq_some, Option.some.injEq, JobRejection.queueClosing.injEq]
      constructor
      · rintro ⟨hclose, rfl⟩
        exact ⟨rfl, hclose⟩
      · rintro ⟨rfl, hclose⟩
        exact ⟨hclose, rfl⟩
    | queueFull queue cap =>
      refine iff_of_false (fun hfull => ?_) fun hblocks => ?_
      · split_ifs at hfull
        cases hfull
      · obtain ⟨other, hother, hclose⟩ := hclosing
        exact Bool.false_ne_true ((hblocks.2.2.2 other hother).symm.trans hclose)
  · rw [mem_listed_iff hlen]
    refine exists_congr fun job => and_congr_right fun hjob => ?_
    have hopen : ∀ other ∈ jobs, idx.isClosing other.req.queue now = false :=
      fun other hother => Bool.eq_false_iff.mpr fun hclose => hclosing ⟨other, hother, hclose⟩
    rw [Option.map_eq_some_iff]
    cases reason with
    | queueClosing queue =>
      refine iff_of_false ?_ ?_
      · rintro ⟨_, _, hfull⟩
        cases hfull
      · rintro ⟨rfl, hclose⟩
        exact hclosing ⟨job, List.mem_of_getElem? hjob, hclose⟩
    | queueFull queue cap =>
      simp only [Option.filter_eq_some_iff, decide_eq_true_eq, JobRejection.queueFull.injEq]
      constructor
      · rintro ⟨cap', ⟨hcap, hfull⟩, rfl, rfl⟩
        exact ⟨rfl, hcap, hfull, hopen⟩
      · rintro ⟨rfl, hcap, hfull, -⟩
        exact ⟨cap, ⟨hcap, hfull⟩, rfl, rfl⟩

/-- An admitted job that is answered has its own answer. -/
theorem enqueueAdmitted_own {job : PreparedJob} {resp : EnqueueResponse} {s s' : TxState}
    (h : enqueueAdmitted now job s = .ok resp s') : OwnAnswer now job s s' (.ok resp) := by
  rw [enqueueAdmitted, bind_run] at h
  cases hcheck : checkDedup job.req now s with
  | error e t =>
    rw [hcheck] at h
    cases h
  | ok check t =>
    simp only [hcheck] at h
    obtain ⟨-, -, hhit⟩ := checkDedup_ok hcheck
    cases check with
    | hit resp =>
      cases h
      obtain ⟨key, stored, d, hkey, hget, hd, hlive, rfl⟩ := hhit resp rfl
      exact ⟨key, stored, d, hkey, hget, hd, hlive, rfl⟩
    | miss staleTimer =>
      obtain ⟨t', hinsert, hjobs⟩ := insertJob_ok job now staleTimer t
      simp only [hinsert] at h
      cases h
      exact ⟨rfl, hjobs⟩

omit [Prost] in
theorem length_preparedAll (env : BatchEnv) (jobs : List EnqueueRequest) :
    (env.preparedAll jobs).length = jobs.length := by
  rw [preparedAll, commitValidated, prepareJobs, List.length_mapIdx, List.length_map]

omit [Prost] in
theorem getElem?_preparedAll {i : ℕ} {job : EnqueueRequest} (h : jobs[i]? = some job) :
    ∃ own, (env.preparedAll jobs)[i]? = some own ∧ own.req = job.fillTraceContext env.current := by
  refine ⟨PreparedJob.new (env.newV4 i) (job.fillTraceContext env.current) env.live env.boot, ?_,
    rfl⟩
  rw [preparedAll, commitValidated, prepareJobs, List.getElem?_mapIdx, List.getElem?_map, h]
  rfl

omit [Prost] in
/-- The caps are those of one registry. -/
theorem sameCaps_preparedAll (env : BatchEnv) (jobs : List EnqueueRequest) :
    SameCaps (env.preparedAll jobs) := by
  intro own hown own' hown' hqueue
  obtain ⟨req, -, hreq, hlimits⟩ := mem_commitValidated hown
  obtain ⟨req', -, hreq', hlimits'⟩ := mem_commitValidated hown'
  rw [hreq, hreq', EnqueueRequest.queue_fillTraceContext, EnqueueRequest.queue_fillTraceContext]
    at hqueue
  rw [hlimits, hlimits', JobLimits.resolve, JobLimits.resolve, hqueue]

/-- The outcome of the operation answers the request. -/
theorem answers_of_apply (hlen : jobs.length ≤ UInt32.size) {outcome : AtomicEnqueueOutcome}
    (h : applyEnqueueAtomic (env.preparedAll jobs) now tx = .ok outcome tx') :
    ∃ response, respondAtomic (.ok (.enqueueAtomic outcome)) = .ok response ∧
      env.Answers jobs now tx tx' response := by
  rw [applyEnqueueAtomic_eq (env.sameCaps_preparedAll jobs)] at h
  have hsize : (env.preparedAll jobs).length ≤ UInt32.size := by rwa [length_preparedAll]
  split_ifs at h with hnil
  · rw [map_eq_pure_bind, bind_run] at h
    cases hloop : (env.preparedAll jobs).mapM (enqueueAdmitted now) tx with
    | error e t =>
      rw [hloop] at h
      cases h
    | ok responses t =>
      rw [hloop] at h
      cases h
      obtain ⟨hresponses, hturns⟩ := mapM_turns hloop
      refine ⟨_, rfl, .success (hresponses.trans (env.length_preparedAll jobs))
        fun i job hjob => ?_⟩
      obtain ⟨own, hown, hreq⟩ := getElem?_preparedAll hjob
      obtain ⟨s, s', resp, hbefore, hadmitted, hresp⟩ := hturns i own hown
      exact ⟨own, s, s', resp, hown, hreq, hbefore, hadmitted, hresp, enqueueAdmitted_own hadmitted⟩
  · cases h
    refine ⟨_, rfl, .refused rfl (by simpa using hnil) fun e => ?_⟩
    rw [List.mem_map]
    constructor
    · rintro ⟨⟨index, reason⟩, hmem, rfl⟩
      obtain ⟨own, hown, hblocks⟩ := (mem_rejectionsOf_iff hsize).mp hmem
      exact ⟨own, reason, hown, rfl, hblocks⟩
    · rintro ⟨own, reason, hown, hreason, hblocks⟩
      refine ⟨(e.index, reason), (mem_rejectionsOf_iff hsize).mpr ⟨own, hown, hblocks⟩, ?_⟩
      dsimp only
      rw [← hreason]

/-- The handler answers with the jobs that are refused, or sends them all. -/
theorem enqueueAtomic_eq_ok {first : AtomicResponse ⊕ Op} (h : env.enqueueAtomic jobs = .ok first) :
    jobs.length ≤ UInt32.size ∧
      ((env.classifyAtomic 0 jobs).1 ≠ [] ∧
          first = .inl (.rejection (env.classifyAtomic 0 jobs).1) ∨
        (env.classifyAtomic 0 jobs).1 = [] ∧
          first = .inr (.enqueueAtomic (env.preparedAll jobs) 0)) := by
  obtain ⟨⟨⟩, -, h⟩ := except_bind_eq_ok h
  obtain ⟨⟨⟩, hlen, h⟩ := except_bind_eq_ok h
  rw [refuseIf_ok_iff, decide_eq_false_iff_not, Nat.not_lt] at hlen
  refine ⟨hlen.trans env.limits.maxEnqueueBatch.toNat_lt.le, ?_⟩
  by_cases hnone : (env.classifyAtomic 0 jobs).1 = []
  · simp only [hnone, List.isEmpty_nil, Bool.not_true, Bool.false_eq_true, if_false] at h
    rw [(classifyAtomic_of_accepted hnone).1] at h
    exact .inr ⟨hnone, (Except.ok.inj h).symm⟩
  · have hsome : (!(env.classifyAtomic 0 jobs).1.isEmpty) = true := by
      rw [Bool.not_eq_true', List.isEmpty_eq_false_iff]
      exact hnone
    simp only [hsome, if_true] at h
    exact .inl ⟨hnone, (Except.ok.inj h).symm⟩

/-- Whatever the handler answers is about the jobs of the request. An answer of its own names
exactly the jobs that are refused, and nothing is sent. A request that is sent has no such job, and
the answer of storage means for the request what it says: all jobs are taken, each with its own
answer, or none is, nothing has changed, and exactly the jobs in the way are named. -/
theorem enqueueAtomic_answers (env : BatchEnv) (jobs : List EnqueueRequest) :
    (∀ response, env.enqueueAtomic jobs = .ok (.inl response) →
      ∃ errors, response = .rejection errors ∧ errors ≠ [] ∧
        ∀ e, e ∈ errors ↔ ∃ job reason, jobs[e.index.toNat]? = some job ∧
          env.classify e.index.toNat job = .error reason ∧ e.rejection = .inl reason) ∧
    ∀ op, env.enqueueAtomic jobs = .ok (.inr op) →
      (∀ i job, jobs[i]? = some job → env.classify i job = .ok ()) ∧
      ∀ (cenv : CycleEnv) (server : Server) (cmds : List Command) (resp : ℕ) (outcome : OpOutcome),
        (∀ cmd ∈ cmds, cmd.resp = resp → cmd = .op op resp) →
        (resp, .op (.ok outcome)) ∈ (runRpcCycle cenv server cmds).replies →
        ∃ earlier later run tx response, cmds = earlier ++ .op op resp :: later ∧
          applyCommands cenv.now earlier { tx := beginCycle cenv server } = (none, run) ∧
          applyOp (op.stamp cenv.now) run.tx = .ok outcome tx ∧
          respondAtomic (.ok outcome) = .ok response ∧
          env.Answers jobs cenv.now run.tx tx response := by
  refine ⟨fun response hown => ?_, fun op hsend => ?_⟩
  · obtain ⟨hlen, ⟨hnone, hfirst⟩ | ⟨-, hfirst⟩⟩ := enqueueAtomic_eq_ok hown
    · exact ⟨_, Sum.inl.inj hfirst, hnone, fun e => mem_classifyAtomic_iff hlen⟩
    · cases hfirst
  · obtain ⟨hlen, ⟨-, hfirst⟩ | ⟨hnone, hfirst⟩⟩ := enqueueAtomic_eq_ok hsend
    · cases hfirst
    obtain rfl := Sum.inr.inj hfirst
    refine ⟨fun i job hjob => ?_, fun cenv server cmds resp outcome hchannel hreply => ?_⟩
    · have haccepted := (classifyAtomic_of_accepted hnone).2 i job hjob
      rwa [Nat.zero_add] at haccepted
    · obtain ⟨earlier, op, later, run, tx, rfl, hrun, hop⟩ := exists_turn_of_reply hreply
      obtain ⟨rfl, -⟩ := Command.op.inj (hchannel (.op op resp)
        (List.mem_append_right _ List.mem_cons_self) rfl)
      have hop' := hop
      rw [Op.stamp, applyOp, bind_run] at hop'
      cases happly : applyEnqueueAtomic (env.preparedAll jobs) cenv.now run.tx with
      | error e t =>
        rw [happly] at hop'
        cases hop'
      | ok answer t =>
        rw [happly] at hop'
        cases hop'
        obtain ⟨response, hresponse, hanswers⟩ := answers_of_apply hlen happly
        exact ⟨earlier, later, run, tx, response, rfl, hrun, hop, hresponse, hanswers⟩

end Storage

end BatchEnv

end Handler

/-- Two jobs for a queue with room for one. -/
def twoJobs : List EnqueueRequest :=
  [{ queue := "mail", jobType := "send" }, { queue := "mail", jobType := "send" }]

open WireFormat in
/-- The cycle that they are sent in as a whole. -/
def twoJobsCycle : CycleResult :=
  runRpcCycle
    { now := 2000, metricsEnabled := false, faults := fun _ => none, commitFails := false }
    {} [.op (.enqueueAtomic (roomForOneEnv.preparedAll twoJobs) 0) 7]

open WireFormat in
theorem enqueueAtomic_answers_twoJobs : ∃ tx, roomForOneEnv.Answers twoJobs 2000 tx tx
    (.rejection [⟨0, .inr (.queueFull "mail" 1)⟩, ⟨1, .inr (.queueFull "mail" 1)⟩]) := by
  have hsend : roomForOneEnv.enqueueAtomic twoJobs =
      .ok (.inr (.enqueueAtomic (roomForOneEnv.preparedAll twoJobs) 0)) := rfl
  have hreply : (7, .op (.ok (.enqueueAtomic (.rejected
      [(0, .queueFull "mail" 1), (1, .queueFull "mail" 1)])))) ∈ twoJobsCycle.replies :=
    CycleResult.mem_replies_of_succeeded (by decide +kernel)
  obtain ⟨-, hsent⟩ := (BatchEnv.enqueueAtomic_answers roomForOneEnv twoJobs).2 _ hsend
  obtain ⟨-, -, run, tx, response, -, -, -, hresponse, hanswers⟩ := hsent _ _ _ _ _ (by
    intro cmd hcmd _
    exact List.mem_singleton.mp hcmd) hreply
  obtain rfl := Except.ok.inj hresponse
  cases hanswers with
  | refused hsame hsome hnamed =>
    subst hsame
    exact ⟨_, .refused rfl hsome hnamed⟩

end Sepp
