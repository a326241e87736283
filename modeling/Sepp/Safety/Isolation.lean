import Sepp.Safety.Reserving
import Sepp.Spec.Picks

/-!
# Queues do not interfere

The operations that take keys from an admin trust none of them. After every run, a list of keys is
as good as those of its keys that are rows of the queue, each once: these leave their keyspace, the
counts and the job ids of the answer are theirs, and no row of another job changes. No operation on
one queue changes a row of another queue, whatever their names have in common.

## Main definitions

* `Rows.requeue`, `Rows.giveUp`, `Rows.delete` — the rows after one key.
* `Rows.Takes` — the answer to a list of keys, and the rows after it.
* `Op.On` — the operation is about one queue.

## Main results

* `Run.queues_isolated`.
-/

open Std

namespace Sepp

section Isolation

variable [Prost]

/-! ### The rows after one key -/

/-- A dead letter goes back in line, on its first attempt. -/
def Rows.requeue (now : Int64) (rows : Rows) (key : Bytes) : Rows :=
  match (rows.deadLetter[key]?.bind (Message.decode (α := DeadLetterRecord))).bind
      DeadLetterRecord.job with
  | none => rows
  | some job =>
    { rows with
      jobs := rows.jobs.insert (asBytes job.id)
        (JobValue.encode { queue := job.queue, job := requeuedJob job now })
      payloads := match job.payload with
        | some payload => rows.payloads.insert (asBytes job.id) (Message.encodeToVec payload)
        | none => rows.payloads
      ready := rows.ready.insert (ReadyKey.encode
        { queue := job.queue, priority := job.priority, enqueuedAt := now, jobId := job.id })
        (KeyWriter.u32 1)
      deadLetter := rows.deadLetter.erase key }

/-- The job that the rows hold, with its payload and queue filled in. -/
def Rows.fullJob (rows : Rows) (id : String) : Option Job :=
  rows.jobs[asBytes id]?.bind fun stored =>
    match JobValue.decode stored with
    | .error _ => none
    | .ok (queue, job) =>
      some { job with queue, payload := rows.payloads[asBytes id]?.bind Message.decode }

/-- A waiting job becomes a dead letter, or is dropped when dead letters are not kept. -/
def Rows.giveUp (ks : KeyspaceName) (reason : Option String) (kept : Bool) (now : Int64)
    (rows : Rows) (key : Bytes) : Rows :=
  match (rows.get ks)[key]?.bind attemptOfRow, (ks.jobOf key).bind rows.fullJob with
  | some attempt, some job =>
    let rows := rows.erase ks key
    { rows with
      jobs := rows.jobs.erase (asBytes job.id)
      payloads := rows.payloads.erase (asBytes job.id)
      deadLetter :=
        if kept then
          rows.deadLetter.insert
            (DeadLetterKey.encode { failedAt := now, queue := job.queue, jobId := asBytes job.id })
            (Message.encodeToVec
              { job := some { job with attempt }
                cause := .admin
                failedAt := some (millisToTimestamp now)
                finalAttempt := attempt
                lastReason := reason : DeadLetterRecord })
        else rows.deadLetter }
  | _, _ => rows

omit [Prost] in
/-- A dead letter is dropped. -/
def Rows.delete (rows : Rows) (key : Bytes) : Rows :=
  { rows with deadLetter := rows.deadLetter.erase key }

/-- The answer to a list of keys of the keyspace, and the rows after it, where `step` is what the
operation does for one key. -/
structure Rows.Takes (rows rows' : Rows) (ks : KeyspaceName) (queue : String) (keys : List Bytes)
    (step : Rows → Bytes → Rows) (success missing : ℕ) (jobIds : List String) : Prop where
  rows_eq : rows' = (rows.picked ks queue keys).foldl step rows
  success_eq : success = (rows.picked ks queue keys).length
  total_eq : success + missing = keys.length
  jobIds_eq : jobIds.map some = (rows.picked ks queue keys).map ks.jobOf
  nodup : jobIds.Nodup
  gone : ∀ key ∈ rows.picked ks queue keys, (rows'.get ks)[key]? = none
  others : ∀ (ks' : KeyspaceName) (key : Bytes), (∀ id ∈ jobIds, ks'.jobOf key ≠ some id) →
    (rows'.get ks')[key]? = (rows.get ks')[key]?
  queues : ∀ other ≠ queue, rows.SameQueue rows' other

variable {a a' : Image} {rows rows' : Rows} {idx idx' : Indexes} {queue : String} {key : Bytes}
  {id : String}

theorem Represents.requeue_of_hit (now : Stamp) (h : Represents a rows idx)
    (hhit : a.Hit .deadLetter queue (fun js => some (js.requeued now)) key id a') :
    ∃ idx', Represents a' (rows.requeue now key) idx' := by
  obtain ⟨js, value, hJ, -, hrow, rfl⟩ := hhit
  obtain ⟨attempt, failedAt, cause, reason, hp, rfl⟩ := JobState.of_row_deadLetter hrow
  have hmoved := h.setJob (h.jobs.requeue hJ hp now) (by simp [JobState.requeued]) rfl rfl
  have hjob : (rows.deadLetter[js.deadKey id failedAt]?.bind
      (Message.decode (α := DeadLetterRecord))).bind DeadLetterRecord.job =
        some (js.fullJob id attempt) := by
    rw [h.jobs.get_deadLetter hJ hp, Option.bind_some, Message.decode_encodeToVec, Option.bind_some]
    rfl
  simp only [Rows.requeue, hjob]
  exact ⟨_, hmoved⟩

/-- The rows of a job that is not dead hold the job. -/
theorem JobsRepr.fullJob_eq {J : String → Option JobState} (h : JobsRepr J rows idx)
    {js : JobState} (hJ : J id = some js) (hlive : ¬ js.place.IsDead) :
    rows.fullJob id = some (js.fullJob id 1) := by
  rw [Rows.fullJob, h.get_jobs hJ hlive, h.get_payloads hJ hlive, Option.bind_some]
  simp only [JobState.decode_jobValue]
  cases hpayload : js.content.payload with
  | none => simp [JobState.fullJob, hpayload, JobState.storedJob]
  | some payload => simp [JobState.fullJob, hpayload, JobState.storedJob]

theorem Represents.giveUp_ready_of_hit {reason : Option String} {kept : Bool} {now : Int64}
    (h : Represents a rows idx)
    (hhit : a.Hit .ready queue (JobState.givenUp reason kept now) key id a') :
    ∃ idx', Represents a' (rows.giveUp .ready reason kept now key) idx' := by
  obtain ⟨js, value, hJ, -, hrow, rfl⟩ := hhit
  obtain ⟨attempt, hp, rfl⟩ := JobState.of_row_ready hrow
  have hlive : ¬ js.place.IsDead := by simp [hp, Place.IsDead]
  have hmoved := h.setJob ((h.jobs.unplace_ready hJ hp).giveUp (Function.update_self ..) rfl attempt
    now .admin reason kept).of_two_moves (by cases kept <;> simp) rfl rfl
  simp only [Rows.giveUp, Rows.get, h.jobs.get_ready hJ hp, Option.bind_some, attemptOfRow_u32,
    JobState.jobOf_row hrow, h.jobs.fullJob_eq hJ hlive, JobState.givenUp, hp]
  exact ⟨_, hmoved⟩

theorem Represents.giveUp_scheduled_of_hit {reason : Option String} {kept : Bool} {now : Int64}
    (h : Represents a rows idx)
    (hhit : a.Hit .scheduled queue (JobState.givenUp reason kept now) key id a') :
    ∃ idx', Represents a' (rows.giveUp .scheduled reason kept now key) idx' := by
  obtain ⟨js, value, hJ, -, hrow, rfl⟩ := hhit
  obtain ⟨attempt, deadline, hp, rfl⟩ := JobState.of_row_scheduled hrow
  have hlive : ¬ js.place.IsDead := by simp [hp, Place.IsDead]
  have hmoved := h.setJob ((h.jobs.unplace_scheduled hJ hp).giveUp (Function.update_self ..) rfl
    attempt now .admin reason kept).of_two_moves (by cases kept <;> simp) rfl rfl
  simp only [Rows.giveUp, Rows.get, h.jobs.get_scheduled hJ hp, Option.bind_some, attemptOfRow_u32,
    JobState.jobOf_row hrow, h.jobs.fullJob_eq hJ hlive, JobState.givenUp, hp]
  exact ⟨_, hmoved⟩

theorem Represents.delete_of_hit (h : Represents a rows idx)
    (hhit : a.Hit .deadLetter queue (fun _ => none) key id a') :
    ∃ idx', Represents a' (rows.delete key) idx' := by
  obtain ⟨js, value, hJ, -, hrow, rfl⟩ := hhit
  obtain ⟨attempt, failedAt, cause, reason, hp, rfl⟩ := JobState.of_row_deadLetter hrow
  exact ⟨_, h.setJob (h.jobs.unbury hJ hp) (by simp) rfl rfl⟩

/-! ### A list of keys -/

/-- A list of keys, from the abstract states before and after. -/
theorem Image.Picks.takes {ks : KeyspaceName} (hks : ks.ofJobs = true)
    {f : JobState → Option JobState} {keys : List Bytes} {success missing : ℕ} {ids : List String}
    {step : Rows → Bytes → Rows}
    (hf : ∀ js js' id, f js = some js' → JobState.row ks id js' = none)
    (hcontent : ∀ js js', f js = some js' → js'.content = js.content)
    (hstep : ∀ {a rows idx key id a'}, Represents a rows idx → a.Hit ks queue f key id a' →
      ∃ idx', Represents a' (step rows key) idx')
    (h : Represents a rows idx) (h' : Represents a' rows' idx')
    (hpicks : a.Picks ks queue f keys success missing ids a') :
    rows.Takes rows' ks queue keys step success missing ids := by
  have hpicked := h.picked_eq hks queue keys
  have hids := map_jobOf_of_hits hpicks.hits
  obtain ⟨hdedup, hclosing, haudit⟩ := rest_of_hits hpicks.hits
  obtain ⟨hnodup, habsent⟩ := nodup_of_hits hf hpicks.hits
  rw [← hpicked] at hids
  refine
    { rows_eq := ?_
      success_eq := ?_
      total_eq := hpicks.total_eq
      jobIds_eq := hids
      nodup := hnodup
      gone := fun key hkey => ?_
      others := fun ks' key hother => ?_
      queues := fun other hne => ?_ }
  · obtain ⟨idx₁, h₁⟩ := h.of_hits hstep hpicks.hits
    rw [hpicked]
    exact h'.rows_eq h₁
  · rw [hpicks.success_eq, ← List.length_map some, hids, List.length_map]
  · -- the row would belong to a job that has left the keyspace
    by_contra hsome
    obtain ⟨value, hvalue⟩ := Option.ne_none_iff_exists'.mp hsome
    obtain ⟨id, hown, hid⟩ := (h'.tracksJobs hks).row_of_get hvalue
    obtain ⟨js, hJ, hrow⟩ := (rowsOf_eq_some_iff _).mp hid
    have hmem : some id ∈ ids.map some := by
      rw [hids]
      exact hown ▸ List.mem_map_of_mem hkey
    obtain ⟨id', hid', heq⟩ := List.mem_map.mp hmem
    obtain rfl := Option.some.inj heq
    cases hrow.symm.trans (habsent id' hid' js hJ)
  · refine h.get_eq_of_jobOf h' hdedup hclosing haudit fun id hid => ?_
    exact jobs_of_hits hpicks.hits fun hmem => hother id hmem hid
  · exact h.sameQueue h' (sameQueue_of_hits hcontent hpicks.hits hne)

/-! ### Operations on one queue -/

omit [Prost] in
/-- The operation is about the queue, and about no other. -/
def Op.On (queue : String) : Op → Prop
  | .enqueue jobs _ | .enqueueAtomic jobs _ => ∀ job ∈ jobs, job.req.queue = queue
  | .reserve queues .. => ∀ queue' ∈ queues, queue' = queue
  | .drainDeadLetters queue' .. => queue' = some queue
  | .closeQueue queue' .. | .openQueue queue' | .requeueDeadLetters queue' ..
  | .deadLetterJobs queue' .. | .deleteDeadLetters queue' _ | .purgeQueueChunk queue' _ =>
    queue' = queue
  | .ack .. | .nack .. | .extend .. | .sweep .. | .auditAppend .. => False

omit [Prost] in
theorem Event.AnswersJob.queue_or_silent {e : Event} {now : Int64} {job : PreparedJob}
    (h : e.AnswersJob now job) : e.queue? = some job.req.queue ∨ e.writes = false := by
  cases e with
  | insert => exact .inl (h.1 ▸ rfl)
  | hit | full | closed => exact .inr rfl
  | _ => exact h.elim

omit [Prost] in
/-- Most operations name the queue in their events. -/
theorem Op.Makes.queue_or_silent {op : Op} {e : Event} (h : op.Makes e) (hon : op.On queue)
    (hreserve : ∀ queues leaseMs maxJobs now, op ≠ .reserve queues leaseMs maxJobs now)
    (hdrain : ∀ queue' max scanCap, op ≠ .drainDeadLetters queue' max scanCap) :
    e.queue? = some queue ∨ e.writes = false := by
  cases op with
  | enqueue | enqueueAtomic =>
    obtain ⟨job, hjob, hanswer⟩ := h
    exact hon job hjob ▸ hanswer.queue_or_silent
  | reserve => exact absurd rfl (hreserve _ _ _ _)
  | drainDeadLetters => exact absurd rfl (hdrain _ _ _)
  | closeQueue | openQueue =>
    obtain rfl := hon
    obtain rfl : e = _ := h
    exact .inl rfl
  | requeueDeadLetters =>
    obtain rfl := hon
    obtain ⟨id, key, -, rfl⟩ := h
    exact .inl rfl
  | deadLetterJobs =>
    obtain rfl := hon
    obtain ⟨id, attempt, rfl⟩ := h
    exact .inl rfl
  | deleteDeadLetters =>
    obtain rfl := hon
    obtain ⟨id, record, key, -, rfl⟩ := h
    exact .inl rfl
  | purgeQueueChunk =>
    obtain rfl := hon
    rcases h with ⟨id, rfl⟩ | ⟨id, key, record, rfl⟩ | ⟨name, rfl, rfl⟩ <;> exact .inl rfl
  | ack | nack | extend | sweep | auditAppend => exact hon.elim

variable {server server' : Server}

/-- An operation on one queue leaves the rows of the others as they are. -/
theorem CallStep.sameQueue {op : Op} {result : Except Status OpOutcome} {other : String}
    (hstep : CallStep server (.answered op result) server') (h : server.Shows a)
    (hwf : op.WellFormed) (hfresh : a.Fresh op.jobs) (hon : op.On queue) (hq : FitsPrefix queue)
    (hne : other ≠ queue) : server.rows.SameQueue server'.rows other := by
  obtain ⟨evs, a', hturn, hnil⟩ := hstep.exists_turn h hwf hfresh
  have hshows' : server'.Shows a' := hturn.shows
  have htrace : Trace Step a evs a' := hturn.events
  cases result with
  | error e =>
    rw [hnil hturn.explained]
    exact fun _ _ _ => Iff.rfl
  | ok r =>
    have hevents : (∀ e ∈ evs, e.queue? = some queue ∨ e.writes = false) →
        server.rows.SameQueue server'.rows other := fun hevs =>
      h.sameQueue hshows' (sameQueue_of_trace htrace hevs hne)
    have hmakes : ∀ e ∈ evs, op.Makes e := fun e he => Explains.makes hturn.explained he
    cases op with
    | drainDeadLetters =>
      obtain rfl := hon
      obtain ⟨evs₁, a₁, htrace₁, hshows₁, hqueue⟩ := h.drained hstep
      exact h.sameQueue hshows₁
        (sameQueue_of_trace htrace₁ (fun e he => .inl (hqueue queue rfl e he)) hne)
    | reserve =>
      have hexp : Explains _ r evs := hturn.explained
      cases r with
      | reserve jobs =>
        refine hevents fun e he => .inl ?_
        obtain rfl : evs = _ := hexp
        obtain ⟨job, hjob, rfl⟩ := List.mem_map.mp he
        have hfits : ∀ queue' ∈ _, FitsPrefix queue' := fun queue' hmem => hon queue' hmem ▸ hq
        exact congrArg some (hon _ (h.queue_of_reserved hfits hstep job hjob))
      | _ => exact hexp.elim
    | _ =>
      refine hevents fun e he => (hmakes e he).queue_or_silent hon ?_ ?_
      · exact fun _ _ _ _ heq => by cases heq
      · exact fun _ _ _ heq => by cases heq

/-- What an operation on a list of keys answers and does, after every run, and what operations on
one queue leave as it is. -/
theorem Run.queues_isolated {calls : List Call} (h : Run calls server) (queue : String) :
    (∀ (keys : List Bytes) (now : Int64), 0 ≤ now.toInt →
      (∃ r server', server.perform (.requeueDeadLetters queue keys now) =
        (.answered (.requeueDeadLetters queue keys now) (.ok (.requeueDeadLetters r)), server')) ∧
      ∀ (r : RequeueOutcome) (server' : Server),
        CallStep server
          (.answered (.requeueDeadLetters queue keys now) (.ok (.requeueDeadLetters r))) server' →
        server.rows.Takes server'.rows .deadLetter queue keys (Rows.requeue now) r.requeued
          r.missing r.jobIds) ∧
    (∀ (state : PeekState) (ks : KeyspaceName) (keys : List Bytes) (reason : Option String)
        (kept : Bool) (now : Int64),
      state = .ready ∧ ks = .ready ∨ state = .scheduled ∧ ks = .scheduled →
      (∃ r server', server.perform (.deadLetterJobs queue state keys reason kept now) =
        (.answered (.deadLetterJobs queue state keys reason kept now) (.ok (.deadLetterJobs r)),
          server')) ∧
      ∀ (r : DeadLetterJobsOutcome) (server' : Server),
        CallStep server (.answered (.deadLetterJobs queue state keys reason kept now)
          (.ok (.deadLetterJobs r))) server' →
        server.rows.Takes server'.rows ks queue keys (Rows.giveUp ks reason kept now)
          r.deadLettered r.missing r.jobIds) ∧
    (∀ keys : List Bytes,
      (∃ r server', server.perform (.deleteDeadLetters queue keys) =
        (.answered (.deleteDeadLetters queue keys) (.ok (.deleteDeadLetters r)), server')) ∧
      ∀ (r : DeleteOutcome) (server' : Server),
        CallStep server
          (.answered (.deleteDeadLetters queue keys) (.ok (.deleteDeadLetters r))) server' →
        server.rows.Takes server'.rows .deadLetter queue keys Rows.delete r.deleted r.missing
          r.jobIds) ∧
    ∀ (op : Op) (result : Except Status OpOutcome) (server' : Server), op.On queue →
      FitsPrefix queue → Admissible (calls ++ [.answered op result]) →
      CallStep server (.answered op result) server' →
      ∀ other ≠ queue, server.rows.SameQueue server'.rows other := by
  obtain ⟨turns, a, -, -, hshows, hknows⟩ := h.exists_turns
  refine ⟨fun keys now hnow => ⟨hshows.perform_requeue queue keys hnow, fun r server' hstep => ?_⟩,
    fun state ks keys reason kept now hstate => ?_,
    fun keys => ⟨hshows.perform_deleteDeadLetters queue keys, fun r server' hstep => ?_⟩,
    fun op result server' hon hq hadm hstep other hne => ?_⟩
  · obtain ⟨a', hshows', hpicks⟩ := hshows.requeued hnow hstep
    refine hpicks.takes rfl (fun js js' id hjs => ?_) (fun js js' hjs => ?_)
      (Represents.requeue_of_hit ⟨now, hnow⟩) hshows hshows' <;> rw [← Option.some.inj hjs] <;> rfl
  · rcases hstate with ⟨rfl, rfl⟩ | ⟨rfl, rfl⟩
    · refine ⟨hshows.perform_deadLetterJobs queue (.inl rfl) keys reason kept now,
        fun r server' hstep => ?_⟩
      obtain ⟨a', hshows', hpicks⟩ := hshows.deadLettered (.inl rfl) hstep
      exact hpicks.takes rfl (JobState.row_givenUp (.inl rfl)) JobState.content_givenUp
        Represents.giveUp_ready_of_hit hshows hshows'
    · refine ⟨hshows.perform_deadLetterJobs queue (.inr rfl) keys reason kept now,
        fun r server' hstep => ?_⟩
      obtain ⟨a', hshows', hpicks⟩ := hshows.deadLettered (.inr rfl) hstep
      exact hpicks.takes rfl (JobState.row_givenUp (.inr rfl)) JobState.content_givenUp
        Represents.giveUp_scheduled_of_hit hshows hshows'
  · obtain ⟨a', hshows', hpicks⟩ := hshows.deleted hstep
    exact hpicks.takes rfl (fun js js' id hjs => by cases hjs) (fun js js' hjs => by cases hjs)
      Represents.delete_of_hit hshows hshows'
  · have hwf : Call.WellFormed (.answered op result) :=
      hadm.wellFormed _ (List.mem_append_right _ List.mem_cons_self)
    exact hstep.sameQueue hshows hwf (hadm.fresh_of_knows hknows) hon hq hne

end Isolation

/-- Jobs of two queues, one name a prefix of the other. -/
def neighbourJobs : List Op :=
  let job (id queue : String) : PreparedJob :=
    { id
      req := { queue, jobType := "send" }
      limits := { priority := 5, maxAttempts := 3, dedupWindowMs := 60000 } }
  [.enqueue [job "a" "mail", job "b" "mailbox", job "c" "mail"] 1000]

/-- The key of a job, twice, with the key of a job of the other queue and one that is none. -/
def strayKeys : List Bytes :=
  let key (queue id : String) : Bytes :=
    ReadyKey.encode { queue, priority := 5, enqueuedAt := 1000, jobId := id }
  [key "mail" "a", key "mailbox" "b", [0, 4], key "mail" "a"]

open WireFormat Server in
/-- One key of the four is a hit. -/
theorem queues_isolated_strayKeys :
    ∃ (r : DeadLetterJobsOutcome) (server' : Server),
      (r.deadLettered, r.missing, r.jobIds) = (1, 3, ["a"]) ∧
      (performAll neighbourJobs {}).2.rows.Takes server'.rows .ready "mail" strayKeys
        (Rows.giveUp .ready none true 2000) r.deadLettered r.missing r.jobIds := by
  obtain ⟨-, hbyHand, -⟩ := Run.queues_isolated
    (Run.of_performAll (show ∀ op ∈ neighbourJobs, op.WellFormed by decide) (by decide)) "mail"
  obtain ⟨⟨r, server', hperform⟩, htakes⟩ :=
    hbyHand .ready .ready strayKeys none true 2000 (.inl ⟨rfl, rfl⟩)
  have hstep := callStep_perform (performAll neighbourJobs {}).2
    (.deadLetterJobs "mail" .ready strayKeys none true 2000)
  have hanswer : ((performAll neighbourJobs {}).2.perform
      (.deadLetterJobs "mail" .ready strayKeys none true 2000)).1 =
        .answered (.deadLetterJobs "mail" .ready strayKeys none true 2000)
          (.ok (.deadLetterJobs { deadLettered := 1, missing := 3, jobIds := ["a"] })) := by
    decide +kernel
  rw [hperform] at hstep hanswer
  obtain ⟨-, hok⟩ := Call.answered.inj hanswer
  have hr := OpOutcome.deadLetterJobs.inj (Except.ok.inj hok)
  exact ⟨r, server', by rw [hr], htakes r server' hstep⟩

end Sepp
