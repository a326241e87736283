import Sepp.Refine.Enqueue
import Sepp.Refine.Lease
import Sepp.Refine.Sweep

/-!
# Every operation makes events

`Explains op r evs` says which events an operation with outcome `r` may have made. Without failing
reads an operation either makes a run of events that its outcome explains, or it is refused and
changes nothing; the audit log is refused with `Internal` when its sequence numbers run out.

## Main definitions

* `Op.WellFormed` — what the callers of the storage layer promise about an operation.
* `Explains` — an outcome and the events behind it.
* `Op.Makes` — the events that an operation may make at all.

## Main results

* `applyOp_refines` — an operation makes events or is refused.
-/

namespace Sepp

/-- What the callers promise: queue names fit their length prefix, and stamps that become part of
a job are not negative. -/
def Op.WellFormed : Op → Prop
  | .enqueue jobs now | .enqueueAtomic jobs now =>
    0 ≤ now.toInt ∧ ∀ job ∈ jobs, FitsPrefix job.req.queue
  | .requeueDeadLetters _ _ now => 0 ≤ now.toInt
  | .purgeQueueChunk queue _ => FitsPrefix queue
  | _ => True

instance : DecidablePred Op.WellFormed := fun op =>
  match op with
  | .enqueue jobs now | .enqueueAtomic jobs now =>
    inferInstanceAs (Decidable (0 ≤ now.toInt ∧ ∀ job ∈ jobs, FitsPrefix job.req.queue))
  | .requeueDeadLetters _ _ now => inferInstanceAs (Decidable (0 ≤ now.toInt))
  | .purgeQueueChunk queue _ => inferInstanceAs (Decidable (FitsPrefix queue))
  | .reserve .. | .ack .. | .nack .. | .extend .. | .drainDeadLetters .. | .closeQueue ..
  | .openQueue .. | .deadLetterJobs .. | .deleteDeadLetters .. | .sweep .. | .auditAppend .. =>
    isTrue trivial

/-- The events behind the outcome of a nack. -/
def ExplainsNack (req : NackRequest) (retryDelayMs : UInt64) (kept : Bool) (now : Int64)
    (r : NackOutcome) (evs : List Event) : Prop :=
  if r.deadLettered then
    ∃ queue, evs = [.bury req.jobId queue req.attempt now (nackCause req) req.reason kept]
  else
    forcesDeadLetter req = false ∧
      ∃ queue, evs = [.retry req.jobId queue req.attempt (nackDelay retryDelayMs now)]

/-- The events behind an outcome. -/
def Explains : Op → OpOutcome → List Event → Prop
  | .enqueue jobs now, .enqueue results, evs => Grouped (Answers now) jobs results evs
  | .enqueueAtomic jobs now, .enqueueAtomic outcome, evs => AnswersAtomic now jobs outcome evs
  | .reserve _ leaseMs _ now, .reserve jobs, evs =>
    evs = jobs.map (Event.lease · (saturatingAdd now (i64OfU64 leaseMs)))
  | .ack id attempt, .ack r, evs => evs = [.ack id r.queue attempt]
  | .nack req retryDelayMs kept now, .nack r, evs => ExplainsNack req retryDelayMs kept now r evs
  | .extend req leaseMs now, .extend r, evs =>
    evs = [.extend req.jobId req.attempt r.leaseExpiresAt] ∧
      r.leaseExpiresAt = saturatingAdd now (i64OfU64 (max leaseMs 1))
  | .drainDeadLetters .., .drainDeadLetters records, evs =>
    evs.map Event.record? = records.map some
  | .closeQueue queue now graceMs, .closeQueue, evs =>
    evs = [.close queue (saturatingAdd now graceMs)]
  | .openQueue queue, .openQueue, evs => evs = [.reopen queue] ∨ evs = []
  | .requeueDeadLetters queue keys now, .requeueDeadLetters r, evs =>
    evs.map Event.jobId? = r.jobIds.map some ∧
      ∀ e ∈ evs, ∃ id, ∃ key ∈ keys, e = .requeue id queue key now
  | .deadLetterJobs queue _ _ reason kept now, .deadLetterJobs r, evs =>
    evs.map Event.jobId? = r.jobIds.map some ∧
      ∀ e ∈ evs, ∃ id attempt, e = .bury id queue attempt now .admin reason kept
  | .deleteDeadLetters queue keys, .deleteDeadLetters _, evs =>
    ∀ e ∈ evs, ∃ id record, ∃ key ∈ keys, e = .discard id queue key record
  | .purgeQueueChunk queue _, .purgeQueueChunk _, evs => ∀ e ∈ evs, PurgesQueue queue e
  | .sweep now _ cutoff kept, .sweep _, evs => ∀ e ∈ evs, SweepEvent now cutoff kept e
  | .auditAppend record now, .auditAppend _ ts, evs => evs = [.append (now, record)] ∧ ts = now
  | _, _, _ => False

/-- The events that answer a job of a batch. -/
def Event.AnswersJob (now : Int64) (job : PreparedJob) : Event → Prop
  | .insert job' now' | .full job' now' | .closed job' now' | .hit job' now' _ =>
    job' = job ∧ now' = now
  | _ => False

/-- The events that an operation may make. -/
def Op.Makes (e : Event) : Op → Prop
  | .enqueue jobs now | .enqueueAtomic jobs now => ∃ job ∈ jobs, e.AnswersJob now job
  | .reserve _ leaseMs _ now => ∃ job, e = .lease job (saturatingAdd now (i64OfU64 leaseMs))
  | .ack id attempt => ∃ queue, e = .ack id queue attempt
  | .nack req retryDelayMs kept now =>
    (∃ queue, e = .bury req.jobId queue req.attempt now (nackCause req) req.reason kept) ∨
      ∃ queue, e = .retry req.jobId queue req.attempt (nackDelay retryDelayMs now)
  | .extend req leaseMs now =>
    e = .extend req.jobId req.attempt (saturatingAdd now (i64OfU64 (max leaseMs 1)))
  | .drainDeadLetters .. => ∃ id queue key record, e = .discard id queue key record
  | .closeQueue queue now graceMs => e = .close queue (saturatingAdd now graceMs)
  | .openQueue queue => e = .reopen queue
  | .requeueDeadLetters queue keys now => ∃ id, ∃ key ∈ keys, e = .requeue id queue key now
  | .deadLetterJobs queue _ _ reason kept now =>
    ∃ id attempt, e = .bury id queue attempt now .admin reason kept
  | .deleteDeadLetters queue keys => ∃ id record, ∃ key ∈ keys, e = .discard id queue key record
  | .purgeQueueChunk queue _ => PurgesQueue queue e
  | .sweep now _ cutoff kept => SweepEvent now cutoff kept e
  | .auditAppend record now => e = .append (now, record)

theorem Accepts.answersJob {now : Int64} {job : PreparedJob} {resp : EnqueueResponse}
    {evs : List Event} (h : Accepts now job resp evs) {e : Event} (he : e ∈ evs) :
    e.AnswersJob now job := by
  rcases h with ⟨-, rfl⟩ | ⟨-, rfl⟩ <;> rw [List.mem_singleton.mp he] <;> exact ⟨rfl, rfl⟩

theorem Answers.answersJob {now : Int64} {job : PreparedJob} {r : EnqueueResult}
    {evs : List Event} (h : Answers now job r evs) {e : Event} (he : e ∈ evs) :
    e.AnswersJob now job := by
  unfold Answers at h
  split at h
  · exact h.answersJob he
  all_goals
    rw [h, List.mem_singleton] at he
    exact he ▸ ⟨rfl, rfl⟩

/-- An outcome is explained by events that its operation may make. -/
theorem Explains.makes {op : Op} {r : OpOutcome} {evs : List Event} (h : Explains op r evs)
    {e : Event} (he : e ∈ evs) : op.Makes e := by
  unfold Explains at h
  split at h
  · obtain ⟨job, hjob, _, _, group, hanswer, hmem⟩ := h.exists_turn he
    exact ⟨job, hjob, hanswer.answersJob hmem⟩
  · unfold AnswersAtomic at h
    split at h
    · obtain ⟨job, hjob, _, _, group, haccept, hmem⟩ := h.exists_turn he
      exact ⟨job, hjob, haccept.answersJob hmem⟩
    · rw [h] at he
      cases he
  · rw [h] at he
    obtain ⟨job, -, rfl⟩ := List.mem_map.mp he
    exact ⟨job, rfl⟩
  · exact ⟨_, List.mem_singleton.mp (h ▸ he)⟩
  · unfold ExplainsNack at h
    split_ifs at h
    · obtain ⟨queue, rfl⟩ := h
      exact .inl ⟨queue, List.mem_singleton.mp he⟩
    · obtain ⟨-, queue, rfl⟩ := h
      exact .inr ⟨queue, List.mem_singleton.mp he⟩
  · rw [h.1] at he
    exact (List.mem_singleton.mp he).trans (by rw [h.2])
  · -- every event has a record, so it is a discard
    have hrecord : e.record? ∈ evs.map Event.record? := List.mem_map_of_mem he
    rw [h] at hrecord
    obtain ⟨record, -, hrec⟩ := List.mem_map.mp hrecord
    cases e with
    | discard id queue key record => exact ⟨id, queue, key, record, rfl⟩
    | _ => cases hrec
  · exact List.mem_singleton.mp (h ▸ he)
  · rcases h with rfl | rfl
    · exact List.mem_singleton.mp he
    · cases he
  · exact h.2 e he
  · exact h.2 e he
  · exact h e he
  · exact h e he
  · exact h e he
  · exact List.mem_singleton.mp (h.1 ▸ he)
  · exact h.elim

/-! ### Which operation made an event -/

namespace Op.Makes

variable {op : Op} {id queue : String} {now : Int64} {attempt : UInt32} {key : Bytes}

theorem of_insert {job : PreparedJob} (h : op.Makes (.insert job now)) :
    ∃ jobs, (op = .enqueue jobs now ∨ op = .enqueueAtomic jobs now) ∧ job ∈ jobs := by
  cases op with
  | enqueue | enqueueAtomic =>
    obtain ⟨job', hjob', rfl, rfl⟩ := h
    exact ⟨_, by simp, hjob'⟩
  | sweep => cases h
  | _ => simp [Op.Makes, PurgesQueue] at h

/-- An enqueue inserts its own jobs only. -/
theorem mem_jobs {job : PreparedJob} (h : op.Makes (.insert job now)) : job ∈ op.jobs := by
  obtain ⟨jobs, rfl | rfl, hjob⟩ := h.of_insert <;> exact hjob

theorem of_lease {job : Job} {expires : Int64} (h : op.Makes (.lease job expires)) :
    ∃ queues leaseMs maxJobs now, op = .reserve queues leaseMs maxJobs now ∧
      expires = saturatingAdd now (i64OfU64 leaseMs) := by
  cases op with
  | reserve =>
    obtain ⟨job', heq⟩ := h
    obtain ⟨-, rfl⟩ := Event.lease.inj heq
    exact ⟨_, _, _, _, rfl, rfl⟩
  | sweep => cases h
  | _ => simp [Op.Makes, PurgesQueue, Event.AnswersJob] at h

theorem of_ack (h : op.Makes (.ack id queue attempt)) : op = .ack id attempt := by
  cases op with
  | ack =>
    obtain ⟨_, heq⟩ := h
    obtain ⟨rfl, -, rfl⟩ := Event.ack.inj heq
    rfl
  | sweep => cases h
  | _ => simp [Op.Makes, PurgesQueue, Event.AnswersJob] at h

theorem of_retry {delayed : Option Int64} (h : op.Makes (.retry id queue attempt delayed)) :
    ∃ req retryDelayMs kept now, op = .nack req retryDelayMs kept now ∧ req.jobId = id ∧
      req.attempt = attempt ∧ delayed = nackDelay retryDelayMs now := by
  cases op with
  | nack =>
    rcases h with ⟨_, h⟩ | ⟨_, h⟩
    · cases h
    · obtain ⟨rfl, -, rfl, rfl⟩ := Event.retry.inj h
      exact ⟨_, _, _, _, rfl, rfl, rfl, rfl⟩
  | sweep => cases h
  | _ => simp [Op.Makes, PurgesQueue, Event.AnswersJob] at h

theorem of_extend {expires : Int64} (h : op.Makes (.extend id attempt expires)) :
    ∃ req leaseMs now, op = .extend req leaseMs now ∧ req.jobId = id ∧ req.attempt = attempt ∧
      expires = saturatingAdd now (i64OfU64 (max leaseMs 1)) := by
  cases op with
  | extend =>
    obtain ⟨rfl, rfl, rfl⟩ := Event.extend.inj h
    exact ⟨_, _, _, rfl, rfl, rfl, rfl⟩
  | sweep => cases h
  | _ => simp [Op.Makes, PurgesQueue, Event.AnswersJob] at h

theorem of_promote (h : op.Makes (.promote id queue now)) :
    ∃ budget cutoff kept, op = .sweep now budget cutoff kept := by
  cases op with
  | sweep =>
    cases h
    exact ⟨_, _, _, rfl⟩
  | _ => simp [Op.Makes, PurgesQueue, Event.AnswersJob] at h

theorem of_redeliver (h : op.Makes (.redeliver id queue now)) :
    ∃ budget cutoff kept, op = .sweep now budget cutoff kept := by
  cases op with
  | sweep =>
    cases h
    exact ⟨_, _, _, rfl⟩
  | _ => simp [Op.Makes, PurgesQueue, Event.AnswersJob] at h

theorem of_bury {cause : DeadLetterCause} {reason : Option String} {kept : Bool}
    (h : op.Makes (.bury id queue attempt now cause reason kept)) :
    (∃ req retryDelayMs, op = .nack req retryDelayMs kept now ∧ req.jobId = id ∧
      req.attempt = attempt ∧ cause = nackCause req ∧ reason = req.reason) ∨
    (∃ state keys, op = .deadLetterJobs queue state keys reason kept now ∧ cause = .admin) ∨
    ∃ budget cutoff, op = .sweep now budget cutoff kept ∧ cause = .leaseExpired ∧
      reason = none := by
  cases op with
  | nack =>
    rcases h with ⟨_, h⟩ | ⟨_, h⟩
    · obtain ⟨rfl, -, rfl, rfl, rfl, rfl, rfl⟩ := Event.bury.inj h
      exact .inl ⟨_, _, rfl, rfl, rfl, rfl, rfl⟩
    · cases h
  | deadLetterJobs =>
    obtain ⟨_, _, h⟩ := h
    obtain ⟨-, rfl, -, rfl, rfl, rfl, rfl⟩ := Event.bury.inj h
    exact .inr (.inl ⟨_, _, rfl, rfl⟩)
  | sweep =>
    cases h
    exact .inr (.inr ⟨_, _, rfl, rfl, rfl⟩)
  | _ => simp [Op.Makes, PurgesQueue, Event.AnswersJob] at h

theorem of_requeue (h : op.Makes (.requeue id queue key now)) :
    ∃ keys, op = .requeueDeadLetters queue keys now ∧ key ∈ keys := by
  cases op with
  | requeueDeadLetters =>
    obtain ⟨_, _, hkey, h⟩ := h
    obtain ⟨-, rfl, rfl, rfl⟩ := Event.requeue.inj h
    exact ⟨_, rfl, hkey⟩
  | sweep => cases h
  | _ => simp [Op.Makes, PurgesQueue, Event.AnswersJob] at h

theorem of_discard {record : DeadLetterRecord} (h : op.Makes (.discard id queue key record)) :
    (∃ filter max scanCap, op = .drainDeadLetters filter max scanCap) ∨
    (∃ keys, op = .deleteDeadLetters queue keys ∧ key ∈ keys) ∨
    (∃ max, op = .purgeQueueChunk queue max) ∨
    ∃ now budget limit kept, op = .sweep now budget (some limit) kept ∧ ¬ limit < deadlineOf key := by
  cases op with
  | drainDeadLetters => exact .inl ⟨_, _, _, rfl⟩
  | deleteDeadLetters =>
    obtain ⟨_, _, _, hkey, h⟩ := h
    obtain ⟨-, rfl, rfl, -⟩ := Event.discard.inj h
    exact .inr (.inl ⟨_, rfl, hkey⟩)
  | purgeQueueChunk =>
    rcases h with ⟨_, h⟩ | ⟨_, _, _, h⟩ | ⟨_, -, h⟩
    · cases h
    · obtain ⟨-, rfl, -, -⟩ := Event.discard.inj h
      exact .inr (.inr (.inl ⟨_, rfl⟩))
    · cases h
  | sweep =>
    cases h with
    | discard _ _ _ _ hcutoff hdue =>
      exact .inr (.inr (.inr ⟨_, _, _, _, by rw [hcutoff], hdue⟩))
  | nack =>
    rcases h with ⟨_, h⟩ | ⟨_, h⟩ <;> cases h
  | _ => simp [Op.Makes, Event.AnswersJob] at h

theorem of_purge (h : op.Makes (.purge id queue)) : ∃ max, op = .purgeQueueChunk queue max := by
  cases op with
  | purgeQueueChunk =>
    rcases h with ⟨_, h⟩ | ⟨_, _, _, h⟩ | ⟨_, -, h⟩
    · obtain ⟨-, rfl⟩ := Event.purge.inj h
      exact ⟨_, rfl⟩
    · cases h
    · cases h
  | sweep => cases h
  | _ => simp [Op.Makes, Event.AnswersJob] at h

theorem of_close {deadline : Int64} (h : op.Makes (.close queue deadline)) :
    ∃ now graceMs, op = .closeQueue queue now graceMs ∧ deadline = saturatingAdd now graceMs := by
  cases op with
  | closeQueue =>
    obtain ⟨rfl, rfl⟩ := Event.close.inj h
    exact ⟨_, _, rfl, rfl⟩
  | sweep => cases h
  | _ => simp [Op.Makes, PurgesQueue, Event.AnswersJob] at h

theorem of_reopen (h : op.Makes (.reopen queue)) : op = .openQueue queue := by
  cases op with
  | openQueue =>
    obtain rfl := Event.reopen.inj h
    rfl
  | sweep => cases h
  | _ => simp [Op.Makes, PurgesQueue, Event.AnswersJob] at h

theorem of_lapse (h : op.Makes (.lapse now)) :
    ∃ budget cutoff kept, op = .sweep now budget cutoff kept := by
  cases op with
  | sweep =>
    cases h
    exact ⟨_, _, _, rfl⟩
  | _ => simp [Op.Makes, PurgesQueue, Event.AnswersJob] at h

end Op.Makes

section Refines

variable [Prost] {a : Image}

/-- A wrapped result, with what its events explain. -/
private theorem realizes_wrap {α : Type} {x : TxM α} {f : α → OpOutcome}
    {Q : α → List Event → Image → Prop} {P : OpOutcome → List Event → Prop}
    (h : Realizes x a Q) (hP : ∀ r evs a', Q r evs a' → P (f r) evs) :
    Realizes (do return f (← x)) a fun r evs _ => P r evs := by
  refine (Realizes.wrap f h).mono ?_
  rintro _ evs a' - ⟨y, rfl, hy⟩
  exact hP y evs a' hy

theorem applyOp_ack_realizes {id : String} {attempt : UInt32} (h : a.Holds id attempt) :
    Realizes (applyOp (.ack id attempt)) a fun r evs _ => Explains (.ack id attempt) r evs := by
  obtain ⟨js, expires, hJ, hp⟩ := h
  exact realizes_wrap (applyAck_realizes hJ hp) fun r evs _ h => h

theorem applyOp_nack_realizes {req : NackRequest} (h : a.Holds req.jobId req.attempt)
    (retryDelayMs : UInt64) (kept : Bool) (now : Int64) :
    Realizes (applyOp (.nack req retryDelayMs kept now)) a
      fun r evs _ => Explains (.nack req retryDelayMs kept now) r evs := by
  obtain ⟨js, expires, hJ, hp⟩ := h
  refine realizes_wrap (applyNack_realizes hJ hp retryDelayMs kept now) fun r evs _ ⟨hevs, hdead⟩ => ?_
  change ExplainsNack req retryDelayMs kept now r evs
  unfold ExplainsNack
  by_cases hgive : forcesDeadLetter req ∨ js.content.maxAttempts ≤ req.attempt
  · rw [if_pos (hdead.mpr hgive)]
    rw [nackEvent, if_pos hgive] at hevs
    exact ⟨_, hevs⟩
  · rw [if_neg (mt hdead.mp hgive)]
    rw [nackEvent, if_neg hgive] at hevs
    exact ⟨by simpa using fun hforce => hgive (.inl hforce), _, hevs⟩

theorem applyOp_extend_realizes {req : ExtendRequest} (h : a.Holds req.jobId req.attempt)
    (leaseMs : UInt64) (now : Int64) :
    Realizes (applyOp (.extend req leaseMs now)) a
      fun r evs _ => Explains (.extend req leaseMs now) r evs := by
  obtain ⟨js, expires, hJ, hp⟩ := h
  exact realizes_wrap (applyExtend_realizes hJ hp leaseMs now) fun r evs _ h => h.1

/-- An operation that holds no lease it acts on is refused. -/
theorem applyOp_ack_rejects {id : String} {attempt : UInt32} (h : ¬ a.Holds id attempt) :
    Rejects (applyOp (.ack id attempt)) a fun e =>
      e.code = .notFound ∨ e.code = .failedPrecondition :=
  (fencedInflight_rejects h).bind.bind

theorem applyOp_nack_rejects {req : NackRequest} (h : ¬ a.Holds req.jobId req.attempt)
    (retryDelayMs : UInt64) (kept : Bool) (now : Int64) :
    Rejects (applyOp (.nack req retryDelayMs kept now)) a fun e =>
      e.code = .notFound ∨ e.code = .failedPrecondition :=
  (fencedInflight_rejects h).bind.bind

theorem applyOp_extend_rejects {req : ExtendRequest} (h : ¬ a.Holds req.jobId req.attempt)
    (leaseMs : UInt64) (now : Int64) :
    Rejects (applyOp (.extend req leaseMs now)) a fun e =>
      e.code = .notFound ∨ e.code = .failedPrecondition :=
  (fencedInflight_rejects h).bind.bind

omit [Prost] in
private theorem ne_internal {e : Status} (h : e.code = .notFound ∨ e.code = .failedPrecondition) :
    e.code ≠ .internal := by
  rcases h with h | h <;> simp [h]

/-- Without failing reads an operation makes events, or is refused and changes nothing; only the
end of the audit sequence is an internal error. -/
theorem applyOp_refines (op : Op) (hwf : op.WellFormed) (hfresh : a.Fresh op.jobs) :
    Realizes (applyOp op) a (fun r evs _ => Explains op r evs) ∨
      Rejects (applyOp op) a (fun e => e.code ≠ .internal) ∨
      ((∃ record now, op = .auditAppend record now) ∧ a.audit.length + 1 = 2 ^ 64 ∧
        Rejects (applyOp op) a fun e => e.code = .internal) := by
  have mono : ∀ {x : TxM OpOutcome} {P Q : Status → Prop}, Rejects x a P → (∀ e, P e → Q e) →
      Rejects x a Q := by
    intro x P Q h hPQ s hs
    obtain ⟨e, hx, he⟩ := h s hs
    exact ⟨e, hx, hPQ e he⟩
  cases op with
  | enqueue jobs now =>
    exact .inl (realizes_wrap (applyEnqueue_realizes ⟨now, hwf.1⟩ hwf.2 hfresh)
      fun r evs _ h => h.1)
  | enqueueAtomic jobs now =>
    exact .inl (realizes_wrap (applyEnqueueAtomic_realizes ⟨now, hwf.1⟩ hwf.2 hfresh)
      fun r evs _ h => h.1)
  | reserve queues leaseMs maxJobs now =>
    exact .inl (realizes_wrap (applyReserve_realizes a queues leaseMs maxJobs.toNat now)
      fun r evs _ h => h.1)
  | ack id attempt =>
    by_cases h : a.Holds id attempt
    · exact .inl (applyOp_ack_realizes h)
    · exact .inr (.inl (mono (applyOp_ack_rejects h) fun e => ne_internal))
  | nack req retryDelayMs kept now =>
    by_cases h : a.Holds req.jobId req.attempt
    · exact .inl (applyOp_nack_realizes h retryDelayMs kept now)
    · exact .inr (.inl (mono (applyOp_nack_rejects h _ _ _) fun e => ne_internal))
  | extend req leaseMs now =>
    by_cases h : a.Holds req.jobId req.attempt
    · exact .inl (applyOp_extend_realizes h leaseMs now)
    · exact .inr (.inl (mono (applyOp_extend_rejects h _ _) fun e => ne_internal))
  | drainDeadLetters queue max scanCap =>
    exact .inl (realizes_wrap (applyDrain_realizes a queue max.toNat scanCap.toNat)
      fun r evs _ h => h.1)
  | closeQueue queue now graceMs =>
    exact .inl (realizes_wrap (applyCloseQueue_realizes a queue now graceMs) fun r evs _ h => h)
  | openQueue queue =>
    exact .inl (realizes_wrap (applyOpenQueue_realizes a queue) fun r evs _ h => h)
  | requeueDeadLetters queue keys now =>
    exact .inl (realizes_wrap (applyRequeueDeadLetters_realizes a queue keys ⟨now, hwf⟩)
      fun r evs _ h => h.1)
  | deadLetterJobs queue state keys reason kept now =>
    by_cases hstate : state = .ready ∨ state = .scheduled
    · exact .inl (realizes_wrap
        (applyDeadLetterJobs_realizes a queue hstate keys reason kept now) fun r evs _ h => h.1)
    · exact .inr (.inl (mono (applyDeadLetterJobs_rejects a queue hstate keys reason kept now).bind
        fun e he => by simp [he]))
  | deleteDeadLetters queue keys =>
    exact .inl (realizes_wrap (applyDeleteDeadLetters_realizes a queue keys) fun r evs _ h => h.1)
  | purgeQueueChunk queue max =>
    by_cases h : a.HasLease queue
    · exact .inr (.inl (mono (applyPurgeQueueChunk_rejects h max.toNat).bind
        fun e he => by simp [he]))
    · exact .inl (realizes_wrap (applyPurgeQueueChunk_realizes hwf h max.toNat)
        fun r evs _ h => h.1)
  | sweep now budget cutoff kept =>
    exact .inl (realizes_wrap (applySweep_realizes a now budget.toNat cutoff kept)
      fun r evs _ h => h.1)
  | auditAppend record now =>
    by_cases hroom : a.audit.length + 1 < 2 ^ 64
    · exact .inl (realizes_wrap (applyAuditAppend_realizes record now hroom)
        fun r evs _ h => ⟨h.2, rfl⟩)
    · by_cases hfull : a.audit.length + 1 = 2 ^ 64
      · exact .inr (.inr ⟨⟨record, now, rfl⟩, hfull, (applyAuditAppend_rejects record now hfull).bind⟩)
      · -- no such state has rows
        refine .inl fun s hs => absurd hs.1.metadata.length_lt (by omega)

end Refines

end Sepp
