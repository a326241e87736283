import Sepp.Library.InTurn
import Sepp.Refine.DeadLetter
import Sepp.Spec.Line

/-!
# Reserving, and ending or extending a lease

Every operation on a lease makes one event, or is refused because the caller does not hold the
lease. Reserve makes one event for each job that it delivers, and serves the lines of its queues one
after the other.
-/

open Std

namespace Sepp

variable [Prost]

/-! ### The fence -/

/-- Some job is leased under this id on this attempt. -/
def Image.Holds (a : Image) (id : String) (attempt : UInt32) : Prop :=
  ∃ js expires, a.jobs id = some js ∧ js.place = .leased attempt expires

theorem fencedInflight_run {J : String → Option JobState} {rows : Rows} {idx : Indexes}
    (h : JobsRepr J rows idx) {id : String} {js : JobState} (hJ : J id = some js)
    {attempt : UInt32} {expires : Int64} (hp : js.place = .leased attempt expires) (c : Cycle) :
    fencedInflight id attempt ⟨rows, idx, c, fun _ => none⟩ =
      .ok (js.readInflight attempt expires) ⟨rows, idx, c, fun _ => none⟩ := by
  simp [fencedInflight, bind_run, txGet_run, h.get_inflight hJ hp, JobState.decode_inflight,
    liftExcept, pure_run]

/-- Without a lease there is no job to find. -/
theorem fencedInflight_notFound {a : Image} {id : String}
    (hnot : ∀ js attempt expires, a.jobs id = some js → js.place ≠ .leased attempt expires)
    (attempt : UInt32) :
    Rejects (fencedInflight id attempt) a fun e => e = ⟨.notFound, "job not found"⟩ := by
  rintro ⟨rows, idx, c, _⟩ ⟨hrep, rfl⟩
  have hnone : rows.inflight[asBytes id]? = none := hrep.jobs.get_inflight_eq_none
    fun js attempt' expires hJ hp => hnot js attempt' expires hJ hp
  refine ⟨_, ?_, rfl⟩
  simp [fencedInflight, bind_run, txGet_run, hnone, throw_run]

theorem fencedInflight_rejects {a : Image} {id : String} {attempt : UInt32}
    (hnot : ¬ a.Holds id attempt) :
    Rejects (fencedInflight id attempt) a fun e =>
      e.code = .notFound ∨ e.code = .failedPrecondition := by
  rintro ⟨rows, idx, c, _⟩ ⟨hrep, rfl⟩
  by_cases hleased : ∃ js attempt' expires, a.jobs id = some js ∧
      js.place = .leased attempt' expires
  · obtain ⟨js, attempt', expires, hJ, hp⟩ := hleased
    have hne : attempt' ≠ attempt := by
      rintro rfl
      exact hnot ⟨js, expires, hJ, hp⟩
    refine ⟨⟨.failedPrecondition, "attempt mismatch"⟩, ?_, .inr rfl⟩
    simp [fencedInflight, bind_run, txGet_run, hrep.jobs.get_inflight hJ hp,
      JobState.decode_inflight, liftExcept, pure_run, throw_run, hne]
  · obtain ⟨e, hrun, rfl⟩ := fencedInflight_notFound
      (fun js attempt' expires hJ hp => hleased ⟨js, attempt', expires, hJ, hp⟩) attempt
      ⟨rows, idx, c, fun _ => none⟩ ⟨hrep, rfl⟩
    exact ⟨_, hrun, .inl rfl⟩

/-! ### Ack and extend -/

section Holder

variable {a : Image} {id : String} {js : JobState} {attempt : UInt32} {expires : Int64}

theorem applyAck_realizes (hJ : a.jobs id = some js) (hp : js.place = .leased attempt expires) :
    Realizes (applyAck id attempt) a fun r evs _ => evs = [.ack id r.queue attempt] := by
  refine Realizes.of_event fun rows idx c hrep => ?_
  have hmoved := (hrep.jobs.unplace_leased hJ hp).remove_job (Function.update_self ..) rfl
  refine ⟨{ queue := js.content.queue, traceContext := Inflight.storedTrace js.content.traceContext },
    _, _, (c.acked js.content.queue).markDirty, _, _, ?_, .ack hJ hp,
    hrep.setJob hmoved.of_two_moves (by simp) rfl rfl,
    .of_writes rfl rfl rfl rfl (.acked c js.content.queue), rfl⟩
  simp only [applyAck, bind_run, fencedInflight_run hrep.jobs hJ hp, txRemove_run, onIndexes_run,
    onCycle_run, pure_run]
  rfl

/-- Writing back what was read of an inflight record changes only the deadline. -/
theorem encode_readInflight (js : JobState) (attempt : UInt32) (expires expires' : Int64) :
    Inflight.encode { js.readInflight attempt expires with leaseExpiresAt := expires' } =
      (js.inflight attempt expires').encode := by
  simp only [Inflight.encode, JobState.readInflight, JobState.inflight]
  rw [Inflight.traceBytes_storedTrace]

theorem applyExtend_realizes {req : ExtendRequest} (hJ : a.jobs req.jobId = some js)
    (hp : js.place = .leased req.attempt expires) (leaseMs : UInt64) (now : Int64) :
    Realizes (applyExtend req leaseMs now) a fun r evs _ =>
      (evs = [.extend req.jobId req.attempt r.leaseExpiresAt] ∧
        r.leaseExpiresAt = saturatingAdd now (i64OfU64 (max leaseMs 1))) ∧
      r.queue = js.content.queue := by
  refine Realizes.of_event fun rows idx c hrep => ?_
  have hmoved := hrep.jobs.extend hJ hp (saturatingAdd now (i64OfU64 (max leaseMs 1)))
  refine ⟨{ queue := js.content.queue
            leaseExpiresAt := saturatingAdd now (i64OfU64 (max leaseMs 1))
            traceContext := Inflight.storedTrace js.content.traceContext },
    _, _, c.markDirty, _, _, ?_, .extend hJ hp _, hrep.setJob hmoved (by simp) rfl rfl,
    .of_writes rfl rfl rfl rfl (.of_eq rfl), ⟨rfl, rfl⟩, rfl⟩
  simp only [applyExtend, bind_run, fencedInflight_run hrep.jobs hJ hp, txRemove_run, txInsert_run,
    onIndexes_run, onCycle_run, pure_run, encode_readInflight]
  rfl

/-! ### Nack -/

/-- The cause that a nack gives up a job for. -/
def nackCause (req : NackRequest) : DeadLetterCause :=
  if forcesDeadLetter req then .rejected else .attemptsExhausted

/-- When the retry of a nack is due, if it waits at all. -/
def nackDelay (retryDelayMs : UInt64) (now : Int64) : Option Int64 :=
  if 0 < retryDelayMs then some (saturatingAdd now (i64OfU64 retryDelayMs)) else none

/-- What a nack does to a job that it holds: it gives the job up when it says so or when no
attempt is left, and lets it wait for the next attempt otherwise. -/
def nackEvent (req : NackRequest) (js : JobState) (retryDelayMs : UInt64) (kept : Bool)
    (now : Int64) : Event :=
  if forcesDeadLetter req ∨ js.content.maxAttempts ≤ req.attempt then
    .bury req.jobId js.content.queue req.attempt now (nackCause req) req.reason kept
  else .retry req.jobId js.content.queue req.attempt (nackDelay retryDelayMs now)

variable {req : NackRequest}

theorem nackDeadLetter_realizes (hJ : a.jobs req.jobId = some js)
    (hp : js.place = .leased req.attempt expires)
    (hgive : forcesDeadLetter req ∨ js.content.maxAttempts ≤ req.attempt) (kept : Bool)
    (now : Int64) :
    Realizes (nackDeadLetter req (js.readInflight req.attempt expires)
      (TimerKey.encode { deadline := expires, jobId := req.jobId }) kept now) a fun r evs _ =>
      r.deadLettered = true ∧
        evs = [.bury req.jobId js.content.queue req.attempt now (nackCause req) req.reason kept] := by
  have hgiven : js.GivenUp req.attempt now (nackCause req) := by
    unfold nackCause
    split_ifs with hforce
    · exact ⟨expires, hp⟩
    · exact ⟨hgive.resolve_left hforce, expires, hp⟩
  refine Realizes.of_event fun rows idx c hrep => ?_
  have hlive : ¬ js.place.IsDead := by simp [hp, Place.IsDead]
  have hjobs := hrep.jobs.get_jobs hJ hlive
  have hpayloads := hrep.jobs.get_payloads hJ hlive
  have hmoved := (hrep.jobs.unplace_leased hJ hp).giveUp (Function.update_self ..) rfl req.attempt
    now (nackCause req) req.reason kept
  have hnotes : Notes (Event.bury req.jobId js.content.queue req.attempt now (nackCause req)
      req.reason kept).notes c ((c.nacked js.content.queue).deadLettered js.content.queue
        (if forcesDeadLetter req then "rejected" else "attempts_exhausted")) := by
    unfold nackCause
    split_ifs <;> exact (Notes.nacked c _).append (.deadLettered _ _ _)
  refine ⟨{ queue := js.content.queue
            deadLettered := true
            retryDelayMs := 0
            traceContext := Inflight.storedTrace js.content.traceContext },
    _, _, ((c.nacked js.content.queue).deadLettered js.content.queue
      (if forcesDeadLetter req then "rejected" else "attempts_exhausted")).markDirty, _, _, ?_,
    .bury hJ _ hgiven req.reason kept,
    hrep.setJob hmoved.of_two_moves (by cases kept <;> simp) rfl rfl,
    .of_writes rfl rfl rfl rfl hnotes, rfl, rfl⟩
  cases hforce : forcesDeadLetter req
  · simp only [nackDeadLetter, nackCause, hforce, Bool.false_eq_true, if_false, bind_run,
      maybeStoreDeadLetter_run rows hjobs hpayloads, txRemove_run, onIndexes_run, onCycle_run,
        pure_run]
    rfl
  · simp only [nackDeadLetter, nackCause, hforce, if_true, bind_run,
      maybeStoreDeadLetter_run rows hjobs hpayloads, txRemove_run, onIndexes_run, onCycle_run,
        pure_run]
    rfl

theorem nackRetry_realizes (hJ : a.jobs req.jobId = some js)
    (hp : js.place = .leased req.attempt expires)
    (hleft : req.attempt < js.content.maxAttempts) (retryDelayMs : UInt64) (now : Int64) :
    Realizes (nackRetry req (js.readInflight req.attempt expires)
      (TimerKey.encode { deadline := expires, jobId := req.jobId }) retryDelayMs now) a
      fun r evs _ => r.deadLettered = false ∧
        evs = [.retry req.jobId js.content.queue req.attempt (nackDelay retryDelayMs now)] := by
  by_cases hdelay : 0 < retryDelayMs
  · rw [nackDelay, if_pos hdelay]
    refine Realizes.of_event fun rows idx c hrep => ?_
    have hmoved := (hrep.jobs.unplace_leased hJ hp).place_scheduled (Function.update_self ..) rfl
      (req.attempt + 1) (saturatingAdd now (i64OfU64 retryDelayMs))
    refine ⟨{ queue := js.content.queue
              deadLettered := false
              retryDelayMs
              traceContext := Inflight.storedTrace js.content.traceContext },
      _, _, (c.nacked js.content.queue).markDirty, _, _, ?_, .retry hJ hp hleft (some _),
      hrep.setJob hmoved.of_two_moves (by simp [Place.retried]) rfl rfl,
      .of_writes rfl rfl rfl rfl (.nacked c js.content.queue), rfl, rfl⟩
    simp only [nackRetry, hdelay, if_true, bind_run, txInsert_run, txRemove_run, onIndexes_run,
      onCycle_run, pure_run]
    rfl
  · rw [nackDelay, if_neg hdelay]
    refine Realizes.of_event fun rows idx c hrep => ?_
    have hmoved := (hrep.jobs.unplace_leased hJ hp).place_ready (Function.update_self ..) rfl
      (req.attempt + 1)
    refine ⟨{ queue := js.content.queue
              deadLettered := false
              retryDelayMs
              traceContext := Inflight.storedTrace js.content.traceContext },
      _, _, ((c.readied js.content.queue).nacked js.content.queue).markDirty, _, _, ?_,
      .retry hJ hp hleft none, hrep.setJob hmoved.of_two_moves (by simp [Place.retried]) rfl rfl,
      .of_readies rfl rfl rfl rfl (.nacked _ js.content.queue), rfl, rfl⟩
    simp only [nackRetry, hdelay, if_false, bind_run, txInsert_run, txRemove_run, onIndexes_run,
      onCycle_run, pure_run]
    rfl

theorem applyNack_realizes (hJ : a.jobs req.jobId = some js)
    (hp : js.place = .leased req.attempt expires) (retryDelayMs : UInt64) (kept : Bool)
    (now : Int64) :
    Realizes (applyNack req retryDelayMs kept now) a fun r evs _ =>
      evs = [nackEvent req js retryDelayMs kept now] ∧
        (r.deadLettered = true ↔
          forcesDeadLetter req ∨ js.content.maxAttempts ≤ req.attempt) := by
  refine Refinement.Realizes.bind_observe (v := js.readInflight req.attempt expires)
    (fun ⟨rows, idx, c, _⟩ ⟨hrep, hcalm⟩ => ?_) ?_
  · obtain rfl : _ = fun _ => none := hcalm
    exact fencedInflight_run hrep.jobs hJ hp c
  · -- the record says what the job says about the attempts
    by_cases hgive : forcesDeadLetter req ∨ (js.readInflight req.attempt expires).maxAttempts ≤
        (js.readInflight req.attempt expires).attempt
    · rw [if_pos hgive]
      rw [JobState.readInflight_attempt, JobState.readInflight_maxAttempts] at hgive
      rw [nackEvent, if_pos hgive]
      exact (nackDeadLetter_realizes hJ hp hgive kept now).mono
        fun _ _ _ _ ⟨hr, hevs⟩ => ⟨hevs, iff_of_true hr hgive⟩
    · rw [if_neg hgive]
      rw [JobState.readInflight_attempt, JobState.readInflight_maxAttempts] at hgive
      rw [nackEvent, if_neg hgive]
      have hleft : req.attempt < js.content.maxAttempts := by
        rw [not_or, UInt32.not_le] at hgive
        exact hgive.2
      exact (nackRetry_realizes hJ hp hleft retryDelayMs now).mono
        fun _ _ _ _ ⟨hr, hevs⟩ => ⟨hevs, iff_of_false (by simp [hr]) hgive⟩

end Holder

/-! ### Reserve -/

/-- A ready job is delivered. -/
theorem reserveOne_run {a : Image} {rows : Rows} {idx : Indexes} (hrep : Represents a rows idx)
    {id : String} {js : JobState} {attempt : UInt32} (hJ : a.jobs id = some js)
    (hp : js.place = .ready attempt) (expires : Int64) (ready : ReadyIndex) (c : Cycle) :
    reserveOne expires (js.readyKey id) attempt ⟨rows, { idx with ready }, c, fun _ => none⟩ =
      .ok (some (js.deliveredJob id attempt expires))
        ⟨{ rows with
            ready := rows.ready.erase (js.readyKey id)
            inflight := rows.inflight.insert (asBytes id) (js.inflight attempt expires).encode
            leases := rows.leases.insert (TimerKey.encode { deadline := expires, jobId := id }) [] },
          { idx with
            ready
            leases := idx.leases.insert (TimerKey.encode { deadline := expires, jobId := id })
              js.content.queue.1 },
          (c.reserved js.content.queue).markDirty, fun _ => none⟩ := by
  have hlive : ¬ js.place.IsDead := by simp [hp, Place.IsDead]
  simp only [reserveOne, js.decode_readyKey, bind_run, txGet_run, Rows.get,
    hrep.jobs.get_jobs hJ hlive, JobState.decode_jobValue, hrep.jobs.get_payloads hJ hlive]
  cases hpayload : js.content.payload with
  | none =>
    simp only [Option.map_none, leaseJob, bind_run, txRemove_run, txInsert_run, onIndexes_run,
      onCycle_run, pure_run, JobState.storedJob_enqueuedAt]
    simp only [JobState.deliveredJob, JobState.fullJob, hpayload]
    rfl
  | some p =>
    simp only [Option.map_some, Message.decode_encodeToVec, leaseJob, bind_run, txRemove_run,
      txInsert_run, onIndexes_run, onCycle_run, pure_run,
      JobState.storedJob_enqueuedAt]
    simp only [JobState.deliveredJob, JobState.fullJob, hpayload]
    rfl

/-- No ready job has a key that starts with `start`. -/
def Image.NoReady (a : Image) (start : Bytes) : Prop :=
  ∀ id js attempt, a.jobs id = some js → js.place = .ready attempt → ¬ start <+: js.readyKey id

/-- One turn of the reserve loop, for the key that was popped. -/
theorem reserveTurn_realizes {a : Image} {rows : Rows} {idx : Indexes} (hrep : Represents a rows idx)
    {start key : Bytes} {attempt : UInt32} {ready : ReadyIndex}
    (hpop : idx.ready.popFront start = some ((key, attempt), ready)) (expires : Int64) :
    Realizes (onIndexes (fun idx => { idx with ready }) >>= fun _ => reserveOne expires key attempt) a
      fun r evs a' => ∃ job, r = some job ∧ evs = [.lease job expires] ∧
        job.readyKey.encode = key ∧ ∃ rows' idx', Represents a' rows' idx' ∧ idx'.ready = ready := by
  obtain ⟨hkey, -, rfl⟩ := ReadyIndex.popFront_eq_some hpop
  obtain ⟨id, js, hJ, hp, rfl⟩ := hrep.jobs.of_ready_entry hkey
  refine Realizes.of_event fun rows₁ idx₁ c hrep₁ => ?_
  obtain rfl := hrep.idx_eq hrep₁
  have hmoved := hrep₁.setJob ((hrep₁.jobs.unplace_ready hJ hp).place_leased
    (Function.update_self ..) rfl attempt expires).of_two_moves (by simp) rfl rfl
  refine ⟨some (js.deliveredJob id attempt expires), _, _,
    (c.reserved js.content.queue).markDirty, _, _, ?_, .lease hJ hp, hmoved,
    .of_writes rfl rfl rfl rfl (.reserved c js.content.queue), _, rfl, rfl,
    js.readyKey_deliveredJob id attempt expires, _, _,
    hmoved, rfl⟩
  simp only [bind_run, onIndexes_run]
  exact reserveOne_run hrep₁ hJ hp expires _ c

/-- What a loop of reserve has done: the jobs it adds to the reply are leased, and it stops short
of the limit only when the queue has no ready job left. -/
def ReservedAll (expires : Int64) (maxJobs : ℕ) (starts : List Bytes) (jobs r : List Job)
    (evs : List Event) (a : Image) : Prop :=
  ∃ new, r = jobs ++ new ∧ evs = new.map (Event.lease · expires) ∧
    (r.length < maxJobs → ∀ start ∈ starts, a.NoReady start)

/-- The reply goes on with the jobs in line, up to the limit. -/
def ServesLine (maxJobs : ℕ) (line : List Bytes) (jobs r : List Job) : Prop :=
  (r.map fun job => job.readyKey.encode) =
    (jobs.map fun job => job.readyKey.encode) ++ line.take (maxJobs - jobs.length)

theorem ServesLine.of_nothing {maxJobs : ℕ} {line : List Bytes} {jobs : List Job}
    (h : line = [] ∨ maxJobs ≤ jobs.length) : ServesLine maxJobs line jobs jobs := by
  rw [ServesLine]
  rcases h with rfl | hlen
  · rw [List.take_nil, List.append_nil]
  · rw [Nat.sub_eq_zero_of_le hlen, List.take_zero, List.append_nil]

omit [Prost] in
theorem Image.NoReady.line_eq_nil {a : Image} {start : Bytes} {line : List Bytes}
    (h : a.NoReady start) (hline : a.Line start line) : line = [] := by
  refine List.eq_nil_iff_forall_not_mem.mpr fun key hkey => ?_
  obtain ⟨hpre, id, js, attempt, hJ, hp, rfl⟩ := (hline.mem_iff key).mp hkey
  exact h id js attempt hJ hp hpre

theorem reserveQueue_realizes (expires : Int64) (maxJobs : ℕ) (start : Bytes) :
    ∀ (turns : ℕ) (jobs : List Job) (a : Image),
      (∀ rows idx, Represents a rows idx → idx.ready.keys.size ≤ turns) →
      Realizes (reserveQueue expires maxJobs start turns jobs) a fun r evs a' =>
        ReservedAll expires maxJobs [start] jobs r evs a' ∧
          ∀ line, a.Line start line → ServesLine maxJobs line jobs r
  | 0, jobs, a, hsize => by
    refine Refinement.Realizes.of_rel fun s hs => ?_
    have hnone : ∀ start, a.NoReady start := fun start' id js attempt hJ hp _ => by
      have hempty := Nat.le_zero.mp (hsize _ _ hs.1)
      rw [← ExtTreeMap.eq_empty_iff_size_eq_zero] at hempty
      have hentry := hs.1.jobs.get_ready_entry hJ hp
      simp [hempty] at hentry
    exact Refinement.Realizes.pure ⟨⟨[], by simp, rfl, fun _ start' _ => hnone start'⟩,
      fun line hline => .of_nothing (.inl ((hnone start).line_eq_nil hline))⟩
  | turns + 1, jobs, a, hsize => by
    rw [reserveQueue]
    by_cases hlen : jobs.length < maxJobs
    swap
    · rw [if_neg hlen]
      exact Refinement.Realizes.pure ⟨⟨[], by simp, rfl, fun h => absurd h hlen⟩,
        fun line _ => .of_nothing (.inr (Nat.not_lt.mp hlen))⟩
    rw [if_pos hlen]
    refine Realizes.bind_getIndexes fun rows idx hrep => ?_
    cases hpop : idx.ready.popFront start with
    | none =>
      have hnone : a.NoReady start := fun id js attempt hJ hp =>
        ReadyIndex.popFront_eq_none hpop (hrep.jobs.get_ready_entry hJ hp)
      refine Refinement.Realizes.pure ⟨⟨[], by simp, rfl, fun _ start' hstart => ?_⟩,
        fun line hline => .of_nothing (.inl (hnone.line_eq_nil hline))⟩
      rw [List.mem_singleton.mp hstart]
      exact hnone
    | some popped =>
      obtain ⟨⟨key, attempt⟩, ready⟩ := popped
      dsimp only
      rw [← bind_assoc]
      refine Refinement.Realizes.bind (reserveTurn_realizes hrep hpop expires) ?_
      rintro _ _ a' hstep ⟨job, rfl, rfl, hjob, rows', idx', hrep', rfl⟩
      have hsize' : ∀ rows idx, Represents a' rows idx → idx.ready.keys.size ≤ turns := by
        intro rows₁ idx₁ hrep₁
        obtain ⟨hkey, -, hready⟩ := ReadyIndex.popFront_eq_some hpop
        have hle := hsize rows idx hrep
        rw [← hrep'.idx_eq hrep₁, hready, ReadyIndex.keys_remove, ExtTreeMap.size_erase,
          if_pos (by rw [ExtTreeMap.contains_eq_isSome_getElem?, hkey]; rfl)]
        omega
      refine (reserveQueue_realizes expires maxJobs start turns (jobs ++ [job]) a' hsize').mono ?_
      rintro r evs a'' - ⟨⟨new, rfl, rfl, hdone⟩, hserves⟩
      refine ⟨⟨job :: new, by simp, rfl, hdone⟩, fun line hline => ?_⟩
      -- the popped key is the least of its line
      have hmem : key ∈ line := by
        obtain ⟨hkey, hpre, -⟩ := ReadyIndex.popFront_eq_some hpop
        obtain ⟨id, js, hJ, hp, heq⟩ := hrep.jobs.of_ready_entry hkey
        exact (hline.mem_iff key).mpr ⟨hpre, id, js, attempt, hJ, hp, heq⟩
      have hleast : ∀ key' ∈ line, (compare key key').isLE := fun key' hkey' => by
        obtain ⟨hpre, id, js, attempt', hJ, hp, rfl⟩ := (hline.mem_iff key').mp hkey'
        exact ReadyIndex.popFront_least hpop (hrep.jobs.get_ready_entry hJ hp) hpre
      have hrest := hserves _ ((Trace.of_single hstep).line_of_lease hline)
      obtain ⟨left, hleft⟩ : ∃ left, maxJobs - jobs.length = left + 1 :=
        ⟨maxJobs - jobs.length - 1, by omega⟩
      have hleft' : maxJobs - (jobs ++ [job]).length = left := by
        rw [List.length_append, List.length_singleton]
        omega
      rw [ServesLine, hleft', hjob] at hrest
      rw [ServesLine, hrest, hleft, hline.eq_cons hmem hleast, List.take_succ_cons,
        List.map_append, List.map_singleton, hjob, List.append_assoc]
      simp

/-- Leasing readies nothing. -/
theorem Image.NoReady.of_leases {a a' : Image} {evs : List Event} {start : Bytes}
    (h : a.NoReady start) (htrace : Trace Step a evs a')
    (hevs : ∀ e ∈ evs, ∃ job expires, e = .lease job expires) : a'.NoReady start := by
  refine htrace.preserves (P := fun a => a.NoReady start) (fun a e b he hstep ha => ?_) h
  obtain ⟨job, expires, rfl⟩ := hevs e he
  cases hstep with
  | @lease id js attempt _ hjob hplace =>
    intro id' js' attempt' hJ' hp'
    rw [setJob_jobs] at hJ'
    by_cases hid : id' = id
    · rw [hid, Function.update_self, Option.some.injEq] at hJ'
      rw [← hJ'] at hp'
      cases hp'
    · rw [Function.update_of_ne hid] at hJ'
      exact ha id' js' attempt' hJ' hp'

/-- The lines that are left when the line of one queue has been served. -/
theorem Image.Line.of_served {a a' : Image} {expires : Int64} {maxJobs : ℕ} {queue : String}
    {jobs new : List Job} {lines : String → List Bytes} (hq : FitsPrefix queue)
    (htrace : Trace Step a (new.map (Event.lease · expires)) a')
    (hline : a.Line (queuePrefix queue) (lines queue))
    (hserves : ServesLine maxJobs (lines queue) jobs (jobs ++ new)) :
    ∃ rest : String → List Bytes,
      ((lines queue).length ≤ maxJobs - jobs.length → rest queue = []) ∧
      (∀ other, FitsPrefix other → other ≠ queue → a.Line (queuePrefix other) (lines other) →
        rest other = lines other) ∧
      ∀ other, a.Line (queuePrefix other) (lines other) →
        a'.Line (queuePrefix other) (rest other) := by
  have hnew : (new.map fun job => job.readyKey.encode) =
      (lines queue).take (maxJobs - jobs.length) := by
    rw [ServesLine, List.map_append] at hserves
    exact List.append_cancel_left hserves
  refine ⟨fun other => (lines other).filter (· ∉ new.map fun job => job.readyKey.encode),
    fun hall => ?_, fun other hfits hne hother => ?_, fun other hother => hother.of_leases htrace⟩
  · rw [hnew, List.take_of_length_le hall, List.filter_eq_nil_iff]
    simp
  · rw [List.filter_eq_self]
    intro key hkey
    refine decide_eq_true fun hmem => hne ?_
    rw [hnew] at hmem
    obtain ⟨hpre, id, js, -, -, -, rfl⟩ := (hother.mem_iff key).mp hkey
    have hpre' := ((hline.mem_iff _).mp (List.mem_of_mem_take hmem)).1
    rw [← queue_eq_of_isPrefix hfits hpre, queue_eq_of_isPrefix hq hpre']

theorem reserveQueues_realizes (expires : Int64) (maxJobs : ℕ) :
    ∀ (queues : List String) (jobs : List Job) (a : Image),
      Realizes (reserveQueues expires maxJobs queues jobs) a fun r evs a' =>
        ReservedAll expires maxJobs (queues.map queuePrefix) jobs r evs a' ∧
          ∀ lines : String → List Bytes, (∀ queue ∈ queues, FitsPrefix queue) →
            (∀ queue ∈ queues, a.Line (queuePrefix queue) (lines queue)) →
            ServesLine maxJobs (queues.eraseDups.flatMap lines) jobs r
  | [], jobs, a => Refinement.Realizes.pure
      ⟨⟨[], by simp, rfl, by simp⟩, fun _ _ _ => .of_nothing (.inl rfl)⟩
  | queue :: queues, jobs, a => by
    rw [reserveQueues]
    by_cases hlen : maxJobs ≤ jobs.length
    · rw [if_pos hlen]
      exact Refinement.Realizes.pure ⟨⟨[], by simp, rfl, fun h => absurd h (by omega)⟩,
        fun _ _ _ => .of_nothing (.inr hlen)⟩
    rw [if_neg hlen]
    refine Realizes.bind_getIndexes fun rows idx hrep => ?_
    have hsize : ∀ rows₁ idx₁, Represents a rows₁ idx₁ → idx₁.ready.keys.size ≤ idx.ready.keys.size :=
      fun rows₁ idx₁ hrep₁ => by rw [hrep.idx_eq hrep₁]
    refine Refinement.Realizes.bind
      (reserveQueue_realizes expires maxJobs (queuePrefix queue) _ jobs a hsize) ?_
    rintro _ _ a' hfirst ⟨⟨new, rfl, rfl, hdone⟩, hserves⟩
    refine Refinement.Realizes.mono (reserveQueues_realizes expires maxJobs queues (jobs ++ new) a') ?_
    rintro _ _ a'' htrace ⟨⟨new', rfl, rfl, hdone'⟩, hserves'⟩
    refine ⟨⟨new ++ new', by simp, by simp, fun hshort start hstart => ?_⟩,
      fun lines hfits hlines => ?_⟩
    · rw [List.map_cons, List.mem_cons] at hstart
      rcases hstart with rfl | hstart
      · have hfirst := hdone (by simp at hshort ⊢; omega) (queuePrefix queue) (by simp)
        refine hfirst.of_leases htrace fun e he => ?_
        obtain ⟨job, -, rfl⟩ := List.mem_map.mp he
        exact ⟨job, expires, rfl⟩
      · exact hdone' hshort start hstart
    · have hq := hfits queue List.mem_cons_self
      have hline := hlines queue List.mem_cons_self
      have hnow := hserves _ hline
      obtain ⟨rest, hempty, hother, hrest⟩ := hline.of_served hq hfirst hnow
      have hlater := hserves' rest (fun other h => hfits other (List.mem_cons_of_mem _ h))
        fun other h => hrest other (hlines other (List.mem_cons_of_mem _ h))
      rw [ServesLine, List.take_flatMap_eraseDups_cons hempty fun other h hne =>
        hother other (hfits other (List.mem_cons_of_mem _ h)) hne
          (hlines other (List.mem_cons_of_mem _ h))]
      rw [ServesLine] at hnow hlater
      have hlength := congrArg List.length hnow
      simp only [List.length_append, List.length_map] at hlength
      rw [hlater, hnow, List.append_assoc, List.length_append, ← Nat.sub_sub]
      congr 3
      omega

theorem applyReserve_realizes (a : Image) (queues : List String) (leaseMs : UInt64) (maxJobs : ℕ)
    (now : Int64) :
    Realizes (applyReserve queues leaseMs maxJobs now) a fun r evs a' =>
      evs = r.map (Event.lease · (saturatingAdd now (i64OfU64 leaseMs))) ∧
        (r.length < maxJobs → ∀ queue ∈ queues, a'.NoReady (queuePrefix queue)) ∧
        ∀ lines : String → List Bytes, (∀ queue ∈ queues, FitsPrefix queue) →
          (∀ queue ∈ queues, a.Line (queuePrefix queue) (lines queue)) →
          (r.map fun job => job.readyKey.encode) =
            (queues.eraseDups.flatMap lines).take maxJobs := by
  refine (reserveQueues_realizes _ maxJobs queues [] a).mono ?_
  rintro r evs a' - ⟨⟨new, rfl, rfl, hdone⟩, hserves⟩
  exact ⟨rfl, fun hshort queue hqueue => hdone hshort _ (List.mem_map_of_mem hqueue), hserves⟩

end Sepp
