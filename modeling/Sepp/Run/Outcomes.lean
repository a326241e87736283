import Sepp.Run.Calls

/-!
# What an answered call has done

The answer of an operation, read back: from a store that stands for `a`, a call with a given
answer leads to a store that stands for an abstract state, which is reached as the operation's own
theorem says, whatever the cycle and the reads that fail.
-/

namespace Sepp

namespace Server.Shows

variable [Prost] {a : Image} {server server' : Server}

theorem swept (h : server.Shows a) {now : Int64} {budget : UInt64} {cutoff : Option Int64}
    {kept : Bool} {n : ℕ}
    (hstep : CallStep server (.answered (.sweep now budget cutoff kept) (.ok (.sweep n))) server') :
    ∃ a', server'.Shows a' ∧ Swept now budget.toNat cutoff kept a n a' := by
  have hreal : Realizes (applyOp (.sweep now budget cutoff kept)) a _ :=
    Realizes.wrap OpOutcome.sweep (applySweep_realizes a now budget.toNat cutoff kept)
  obtain ⟨evs, a', -, hshows', n', hn, -, hswept⟩ := h.callStep_of_realizes hreal hstep
  obtain rfl := OpOutcome.sweep.inj hn
  exact ⟨a', hshows', hswept⟩

theorem purged (h : server.Shows a) {queue : String} (hq : FitsPrefix queue) {limit : UInt64}
    {r : PurgeOutcome} (hstep : CallStep server
      (.answered (.purgeQueueChunk queue limit) (.ok (.purgeQueueChunk r))) server') :
    ∃ evs a', Trace Step a evs a' ∧ server'.Shows a' ∧ (∀ e ∈ evs, PurgesQueue queue e) ∧
      r.purged = evs.length ∧ evs.length ≤ limit.toNat ∧
      (evs.length < limit.toNat → ¬ a'.Owns queue) ∧ (r.remaining = true ↔ a'.Owns queue) := by
  by_cases hlease : a.HasLease queue
  · obtain ⟨-, e, hcall, -⟩ := h.callStep_of_rejects
      (applyPurgeQueueChunk_rejects hlease limit.toNat).bind hstep
    cases hcall
  have hreal : Realizes (applyOp (.purgeQueueChunk queue limit)) a _ :=
    Realizes.wrap OpOutcome.purgeQueueChunk (applyPurgeQueueChunk_realizes hq hlease limit.toNat)
  obtain ⟨evs, a', htrace, hshows', r', hr, hpurged⟩ := h.callStep_of_realizes hreal hstep
  obtain rfl := OpOutcome.purgeQueueChunk.inj hr
  exact ⟨evs, a', htrace, hshows', hpurged⟩

theorem drained (h : server.Shows a) {queue : Option String} {max scanCap : UInt64}
    {r : OpOutcome}
    (hstep : CallStep server (.answered (.drainDeadLetters queue max scanCap) (.ok r)) server') :
    ∃ evs a', Trace Step a evs a' ∧ server'.Shows a' ∧
      ∀ want, queue = some want → ∀ e ∈ evs, e.queue? = some want := by
  have hreal : Realizes (applyOp (.drainDeadLetters queue max scanCap)) a _ :=
    Realizes.wrap OpOutcome.drainDeadLetters
      (applyDrain_realizes a queue max.toNat scanCap.toNat)
  obtain ⟨evs, a', htrace, hshows', -, -, -, hqueue⟩ := h.callStep_of_realizes hreal hstep
  exact ⟨evs, a', htrace, hshows', hqueue⟩

section Keys

variable {queue : String} {keys : List Bytes} {now : Int64}

theorem requeued (h : server.Shows a) (hnow : 0 ≤ now.toInt) {r : RequeueOutcome}
    (hstep : CallStep server
      (.answered (.requeueDeadLetters queue keys now) (.ok (.requeueDeadLetters r))) server') :
    ∃ a', server'.Shows a' ∧ a.Picks .deadLetter queue (fun js => some (js.requeued ⟨now, hnow⟩))
      keys r.requeued r.missing r.jobIds a' := by
  have hreal : Realizes (applyOp (.requeueDeadLetters queue keys now)) a _ :=
    Realizes.wrap OpOutcome.requeueDeadLetters
      (applyRequeueDeadLetters_realizes a queue keys ⟨now, hnow⟩)
  obtain ⟨evs, a', -, hshows', r', hr, -, hpicks⟩ := h.callStep_of_realizes hreal hstep
  obtain rfl := OpOutcome.requeueDeadLetters.inj hr
  exact ⟨a', hshows', hpicks⟩

theorem perform_requeue (h : server.Shows a) (queue : String) (keys : List Bytes)
    (hnow : 0 ≤ now.toInt) :
    ∃ r server', server.perform (.requeueDeadLetters queue keys now) =
      (.answered (.requeueDeadLetters queue keys now) (.ok (.requeueDeadLetters r)), server') := by
  have hreal : Realizes (applyOp (.requeueDeadLetters queue keys now)) a _ :=
    Realizes.wrap OpOutcome.requeueDeadLetters
      (applyRequeueDeadLetters_realizes a queue keys ⟨now, hnow⟩)
  obtain ⟨r, server', evs, a', hperform, -, -, r', rfl, -⟩ := h.perform_of_realizes hreal
  exact ⟨r', server', hperform⟩

variable {state : PeekState} {reason : Option String} {kept : Bool}

theorem deadLettered (h : server.Shows a) (hstate : state = .ready ∨ state = .scheduled)
    {r : DeadLetterJobsOutcome}
    (hstep : CallStep server (.answered (.deadLetterJobs queue state keys reason kept now)
      (.ok (.deadLetterJobs r))) server') :
    ∃ a', server'.Shows a' ∧ a.Picks state.keyspace queue (JobState.givenUp reason kept now) keys
      r.deadLettered r.missing r.jobIds a' := by
  have hreal : Realizes (applyOp (.deadLetterJobs queue state keys reason kept now)) a _ :=
    Realizes.wrap OpOutcome.deadLetterJobs
      (applyDeadLetterJobs_realizes a queue hstate keys reason kept now)
  obtain ⟨evs, a', -, hshows', r', hr, -, hpicks⟩ := h.callStep_of_realizes hreal hstep
  obtain rfl := OpOutcome.deadLetterJobs.inj hr
  exact ⟨a', hshows', hpicks⟩

theorem perform_deadLetterJobs (h : server.Shows a) (queue : String)
    (hstate : state = .ready ∨ state = .scheduled) (keys : List Bytes) (reason : Option String)
    (kept : Bool) (now : Int64) :
    ∃ r server', server.perform (.deadLetterJobs queue state keys reason kept now) =
      (.answered (.deadLetterJobs queue state keys reason kept now) (.ok (.deadLetterJobs r)),
        server') := by
  have hreal : Realizes (applyOp (.deadLetterJobs queue state keys reason kept now)) a _ :=
    Realizes.wrap OpOutcome.deadLetterJobs
      (applyDeadLetterJobs_realizes a queue hstate keys reason kept now)
  obtain ⟨r, server', evs, a', hperform, -, -, r', rfl, -⟩ := h.perform_of_realizes hreal
  exact ⟨r', server', hperform⟩

theorem deleted (h : server.Shows a) {r : DeleteOutcome}
    (hstep : CallStep server
      (.answered (.deleteDeadLetters queue keys) (.ok (.deleteDeadLetters r))) server') :
    ∃ a', server'.Shows a' ∧
      a.Picks .deadLetter queue (fun _ => none) keys r.deleted r.missing r.jobIds a' := by
  have hreal : Realizes (applyOp (.deleteDeadLetters queue keys)) a _ :=
    Realizes.wrap OpOutcome.deleteDeadLetters (applyDeleteDeadLetters_realizes a queue keys)
  obtain ⟨evs, a', -, hshows', r', hr, -, hpicks⟩ := h.callStep_of_realizes hreal hstep
  obtain rfl := OpOutcome.deleteDeadLetters.inj hr
  exact ⟨a', hshows', hpicks⟩

theorem perform_deleteDeadLetters (h : server.Shows a) (queue : String) (keys : List Bytes) :
    ∃ r server', server.perform (.deleteDeadLetters queue keys) =
      (.answered (.deleteDeadLetters queue keys) (.ok (.deleteDeadLetters r)), server') := by
  have hreal : Realizes (applyOp (.deleteDeadLetters queue keys)) a _ :=
    Realizes.wrap OpOutcome.deleteDeadLetters (applyDeleteDeadLetters_realizes a queue keys)
  obtain ⟨r, server', evs, a', hperform, -, -, r', rfl, -⟩ := h.perform_of_realizes hreal
  exact ⟨r', server', hperform⟩

end Keys

section Reserve

variable {queues : List String} {leaseMs maxJobs : UInt64} {now : Int64}

theorem reserved (h : server.Shows a) {jobs : List Job}
    (hstep : CallStep server
      (.answered (.reserve queues leaseMs maxJobs now) (.ok (.reserve jobs))) server') :
    ∃ a', server'.Shows a' ∧
      Trace Step a (jobs.map (Event.lease · (saturatingAdd now (i64OfU64 leaseMs)))) a' ∧
      ∀ lines : String → List Bytes, (∀ queue ∈ queues, FitsPrefix queue) →
        (∀ queue ∈ queues, a.Line (queuePrefix queue) (lines queue)) →
        (jobs.map fun job => job.readyKey.encode) =
          (queues.eraseDups.flatMap lines).take maxJobs.toNat := by
  have hreal : Realizes (applyOp (.reserve queues leaseMs maxJobs now)) a _ :=
    Realizes.wrap OpOutcome.reserve (applyReserve_realizes a queues leaseMs maxJobs.toNat now)
  obtain ⟨evs, a', htrace, hshows', jobs', hjobs, hevs, -, hserves⟩ :=
    h.callStep_of_realizes hreal hstep
  obtain rfl := OpOutcome.reserve.inj hjobs
  exact ⟨a', hshows', hevs ▸ htrace, hserves⟩

theorem perform_reserve (h : server.Shows a) (queues : List String) (leaseMs maxJobs : UInt64)
    (now : Int64) :
    ∃ jobs server' a', server.perform (.reserve queues leaseMs maxJobs now) =
        (.answered (.reserve queues leaseMs maxJobs now) (.ok (.reserve jobs)), server') ∧
      server'.Shows a' := by
  have hreal : Realizes (applyOp (.reserve queues leaseMs maxJobs now)) a _ :=
    Realizes.wrap OpOutcome.reserve (applyReserve_realizes a queues leaseMs maxJobs.toNat now)
  obtain ⟨r, server', evs, a', hperform, -, hshows', jobs, rfl, -⟩ := h.perform_of_realizes hreal
  exact ⟨jobs, server', a', hperform, hshows'⟩

end Reserve

/-- An extend that is answered moves the lease of a job, and names its queue. -/
theorem extended (h : server.Shows a) {req : ExtendRequest} {leaseMs : UInt64} {now : Int64}
    {r : ExtendOutcome}
    (hstep : CallStep server (.answered (.extend req leaseMs now) (.ok (.extend r))) server') :
    ∃ js expires, a.jobs req.jobId = some js ∧ js.place = .leased req.attempt expires ∧
      r.queue = js.content.queue ∧
      r.leaseExpiresAt = saturatingAdd now (i64OfU64 (max leaseMs 1)) := by
  by_cases hholds : a.Holds req.jobId req.attempt
  · obtain ⟨js, expires, hJ, hp⟩ := hholds
    have hreal : Realizes (applyOp (.extend req leaseMs now)) a _ :=
      Realizes.wrap OpOutcome.extend (applyExtend_realizes hJ hp leaseMs now)
    obtain ⟨evs, a', -, -, r', hr, ⟨-, hexpires⟩, hqueue⟩ := h.callStep_of_realizes hreal hstep
    obtain rfl := OpOutcome.extend.inj hr
    exact ⟨js, expires, hJ, hp, hqueue, hexpires⟩
  · obtain ⟨-, e, hcall, -⟩ := h.callStep_of_rejects (applyOp_extend_rejects hholds leaseMs now) hstep
    cases hcall

section Enqueue

variable {jobs : List PreparedJob} {now : Int64}

theorem enqueued (h : server.Shows a) (hwf : (Op.enqueue jobs now).WellFormed)
    (hfresh : a.Fresh jobs) {rs : List EnqueueResult}
    (hstep : CallStep server (.answered (.enqueue jobs now) (.ok (.enqueue rs))) server') :
    ∃ a', server'.Shows a' ∧ Chained (EnqueueTurn ⟨now, hwf.1⟩) a jobs rs a' := by
  have hreal : Realizes (applyOp (.enqueue jobs now)) a _ :=
    Realizes.wrap OpOutcome.enqueue (applyEnqueue_realizes ⟨now, hwf.1⟩ hwf.2 hfresh)
  obtain ⟨evs, a', -, hshows', rs', hrs, -, hchain⟩ := h.callStep_of_realizes hreal hstep
  obtain rfl := OpOutcome.enqueue.inj hrs
  exact ⟨a', hshows', hchain⟩

theorem perform_enqueue (h : server.Shows a) (hwf : (Op.enqueue jobs now).WellFormed)
    (hfresh : a.Fresh jobs) :
    ∃ rs server' a', server.perform (.enqueue jobs now) =
        (.answered (.enqueue jobs now) (.ok (.enqueue rs)), server') ∧
      server'.Shows a' ∧ Chained (EnqueueTurn ⟨now, hwf.1⟩) a jobs rs a' := by
  have hreal : Realizes (applyOp (.enqueue jobs now)) a _ :=
    Realizes.wrap OpOutcome.enqueue (applyEnqueue_realizes ⟨now, hwf.1⟩ hwf.2 hfresh)
  obtain ⟨r, server', evs, a', hperform, -, hshows', rs, rfl, -, hchain⟩ :=
    h.perform_of_realizes hreal
  exact ⟨rs, server', a', hperform, hshows', hchain⟩

theorem enqueuedAtomic (h : server.Shows a) (hwf : (Op.enqueueAtomic jobs now).WellFormed)
    (hfresh : a.Fresh jobs) {resps : List EnqueueResponse}
    (hstep : CallStep server
      (.answered (.enqueueAtomic jobs now) (.ok (.enqueueAtomic (.committed resps)))) server') :
    ∃ a', server'.Shows a' ∧ Chained (AcceptTurn ⟨now, hwf.1⟩) a jobs resps a' ∧
      closingRejections server.indexes jobs now = [] ∧
      (fullQueues server.indexes jobs).isEmpty = true := by
  have hreal : Realizes (applyOp (.enqueueAtomic jobs now)) a _ :=
    Realizes.wrap OpOutcome.enqueueAtomic (applyEnqueueAtomic_realizes ⟨now, hwf.1⟩ hwf.2 hfresh)
  obtain ⟨evs, a', -, hshows', r, hr, -, hcommitted⟩ := h.callStep_of_realizes hreal hstep
  obtain rfl := OpOutcome.enqueueAtomic.inj hr
  obtain ⟨hchain, hchecks⟩ := hcommitted resps rfl
  exact ⟨a', hshows', hchain, hchecks _ _ h⟩

end Enqueue

end Server.Shows

end Sepp
