import Sepp.Refine.Basic
import Sepp.Spec.Picks

/-!
# Operations on dead letters make events

Storing a dead letter, drain, requeue, dead-letter by hand and delete.
-/

open Std

namespace Sepp

variable [Prost]

/-! ### Storing a dead letter -/

/-- The rows of a job that is not dead hold the job that its dead letter will carry. -/
theorem readDeadLetterJob_run {rows : Rows} {id : String} {js : JobState}
    (hjobs : rows.jobs[asBytes id]? =
      some (JobValue.encode { queue := js.content.queue, job := js.storedJob id }))
    (hpayloads : rows.payloads[asBytes id]? = js.content.payload.map Message.encodeToVec)
    (idx : Indexes) (c : Cycle) :
    readDeadLetterJob (asBytes id) ⟨rows, idx, c, fun _ => none⟩ =
      .ok (some (js.fullJob id 1)) ⟨rows, idx, c, fun _ => none⟩ := by
  simp only [readDeadLetterJob, bind_run, txGet_run, Rows.get, hjobs, JobState.decode_jobValue,
    hpayloads]
  cases hp : js.content.payload with
  | none => simp [pure_run, JobState.fullJob, hp, JobState.storedJob]
  | some p => simp [pure_run, JobState.fullJob, hp, JobState.storedJob]

theorem maybeStoreDeadLetter_run (rows : Rows) {id : String} {js : JobState}
    (hjobs : rows.jobs[asBytes id]? =
      some (JobValue.encode { queue := js.content.queue, job := js.storedJob id }))
    (hpayloads : rows.payloads[asBytes id]? = js.content.payload.map Message.encodeToVec)
    (idx : Indexes) (c : Cycle) (m : DeadLetterMeta) (kept : Bool) :
    maybeStoreDeadLetter (asBytes id) m kept ⟨rows, idx, c, fun _ => none⟩ = .ok ()
      ⟨{ rows with
          deadLetter :=
            if kept then rows.deadLetter.insert (js.deadKey id m.failedAt) (Message.encodeToVec
              (js.deadLetter id m.attempt m.failedAt m.cause m.lastReason))
            else rows.deadLetter },
        { idx with
          deadLetter :=
            if kept then idx.deadLetter.insert (js.deadKey id m.failedAt) js.content.queue.1
            else idx.deadLetter }, c, fun _ => none⟩ := by
  cases kept with
  | false => rfl
  | true =>
    simp only [maybeStoreDeadLetter, if_true, bind_run,
      readDeadLetterJob_run hjobs hpayloads idx c, onIndexes_run, txInsert_run]
    rfl

/-! ### Drain -/

/-- The index entry of a dead letter that is not there is not there either. -/
theorem remove_deadLetter_of_none {a : Image} {rows : Rows} {idx : Indexes}
    (hrep : Represents a rows idx) {key : Bytes} (hk : rows.deadLetter[key]? = none) :
    { idx with deadLetter := (idx.deadLetter.remove key).2 } = idx := by
  rw [TimerIndex.remove, hrep.jobs.dead_entry_eq_none hk]

/-- A dead letter goes to the caller of a drain. -/
def Drained (key : Bytes) (record : DeadLetterRecord) (e : Event) : Prop :=
  ∃ id queue, e = .discard id queue key record

/-- The refinement for the body of a drain, which leaves the account to the end of the loop. -/
def quietRefinement : Refinement Image Event TxState where
  step := Step
  rel a s := Represents a s.rows s.indexes ∧ s.faults = fun _ => none
  account _ s s' := s'.cycle = s.cycle
  account_nil _ := rfl
  account_append h h' := h'.trans h

theorem drainOne_realizes (a : Image) (key : Bytes) :
    quietRefinement.Realizes (drainOne key) a fun r evs _ => AtMostOne Drained key r evs := by
  rintro ⟨rows, idx, c, _⟩ ⟨hrep, rfl⟩
  cases hk : rows.deadLetter[key]? with
  | none =>
    refine ⟨none, ⟨rows, idx, c, fun _ => none⟩, [], a, ?_, .nil a, ⟨hrep, rfl⟩, rfl, rfl⟩
    simp only [drainOne, bind_run, txGet_run, Rows.get, hk, onIndexes_run,
      remove_deadLetter_of_none hrep hk, pure_run]
  | some value =>
    obtain ⟨id, js, attempt, failedAt, cause, reason, hJ, hp, rfl, rfl⟩ := hrep.jobs.of_dead_row hk
    have hmoved := hrep.setJob (hrep.jobs.unbury hJ hp) (by simp) rfl rfl
    refine ⟨some (js.deadLetter id attempt failedAt cause reason), ⟨_, _, c, fun _ => none⟩, _, _,
      ?_, .single (.discard hJ hp), ⟨hmoved, rfl⟩, rfl, _, rfl, _, _, rfl⟩
    simp only [drainOne, bind_run, txGet_run, Rows.get, hk, Message.decode_encodeToVec,
      onIndexes_run, txRemove_run, pure_run]
    rfl

/-- A dead letter is discarded under a key that names its queue. -/
theorem queueOf_of_discard {a a' : Image} {evs : List Event} (h : Trace Step a evs a')
    {id queue : String} {key : Bytes} {record : DeadLetterRecord}
    (he : .discard id queue key record ∈ evs) : DeadLetterKey.queueOf key = some queue := by
  obtain ⟨b, b', hstep⟩ := h.exists_step he
  cases hstep with
  | @discard _ js => exact DeadLetterKey.queueOf_encode js.content.queue.2

/-- A drain of one queue takes keys that name the queue. -/
theorem queueOf_of_drainKeys {a : Image} {rows : Rows} {idx : Indexes} (h : Represents a rows idx)
    {want : String} {max scanCap : ℕ} {key : Bytes}
    (hkey : key ∈ drainKeys idx.deadLetter (some want) max scanCap) :
    DeadLetterKey.queueOf key = some want := by
  obtain ⟨⟨key, owner⟩, hmem, rfl⟩ := List.mem_map.mp hkey
  obtain ⟨hmem, hwant⟩ := List.mem_filter.mp (List.mem_of_mem_take hmem)
  obtain rfl : want = owner := by simpa using hwant
  have hentry := ExtTreeMap.mem_toList_iff_getElem?_eq_some.mp (List.mem_of_mem_take hmem)
  obtain ⟨id, js, attempt, failedAt, cause, reason, -, -, rfl, rfl⟩ := h.jobs.of_dead_entry hentry
  exact DeadLetterKey.queueOf_encode js.content.queue.2

theorem applyDrain_realizes (a : Image) (queue : Option String) (max scanCap : ℕ) :
    Realizes (applyDrain queue max scanCap) a fun records evs _ =>
      evs.map Event.record? = records.map some ∧
        ∀ want, queue = some want → ∀ e ∈ evs, e.queue? = some want := by
  refine Realizes.bind_getIndexes fun _ idx₀ hrep₀ => ?_
  refine realizes_iff.mpr fun rows idx c hrep => ?_
  obtain ⟨rs, ⟨rows', idx', c', _⟩, evs, a', hrun, htrace, ⟨hrep', rfl⟩, hc, hgroup, -⟩ :=
    Refinement.Realizes.mapM (R := quietRefinement) (f := drainOne) (P := AtMostOne Drained)
      (I := fun _ _ => True)
      (fun key keys a _ => (drainOne_realizes a key).mono fun _ _ _ _ h => ⟨h, trivial⟩)
      (drainKeys idx₀.deadLetter queue max scanCap) a trivial ⟨rows, idx, c, fun _ => none⟩
      ⟨hrep, rfl⟩
  obtain rfl : c' = c := hc
  have hdiscard : ∀ e ∈ evs, ∃ id queue key record, e = .discard id queue key record := by
    intro e he
    obtain ⟨key, -, record, -, id, queue, rfl⟩ := hgroup.exists_result he
    exact ⟨id, queue, key, record, rfl⟩
  have hqueue : ∀ want, queue = some want → ∀ e ∈ evs, e.queue? = some want := by
    rintro want rfl e he
    obtain ⟨key, hkey, record, -, id, owner, rfl⟩ := hgroup.exists_result he
    exact (queueOf_of_discard htrace he).symm.trans (queueOf_of_drainKeys hrep₀ hkey)
  have hrecords : evs.map Event.record? = rs.reduceOption.map some :=
    hgroup.map_eq_reduceOption fun key record e ⟨id, queue, he⟩ => he ▸ rfl
  -- the cycle is marked dirty after the loop, if a record was found
  by_cases hnil : rs.reduceOption = []
  · obtain rfl : evs = [] := by simpa [hnil] using hrecords
    refine ⟨[], rows', idx', c', [], a', ?_, htrace, hrep', Recorded.nil c', rfl, hqueue⟩
    simp only [bind_run, hrun, hnil, ne_eq, not_true, if_false, pure_run]
  · have hwrites : evs.any Event.writes = true := by
      obtain ⟨e, he⟩ := List.exists_mem_of_ne_nil evs (by rintro rfl; simp_all)
      obtain ⟨id, queue, key, record, rfl⟩ := hdiscard e he
      exact List.any_eq_true.mpr ⟨_, he, rfl⟩
    refine ⟨rs.reduceOption, rows', idx', (c'.deadLetterDrained rs.reduceOption.length).markDirty,
      evs, a', ?_, htrace, hrep', ⟨?_, fun _ h => h, ?_, ?_⟩, hrecords, hqueue⟩
    · simp only [bind_run, hrun, hnil, ne_eq, not_false_iff, if_true, onCycle_run, pure_run]
    · simp [Cycle.markDirty, hwrites]
    · intro e he queue hqueue
      obtain ⟨id, queue, key, record, rfl⟩ := hdiscard e he
      cases hqueue
    · have hnotes : evs.flatMap Event.notes = [] := by
        refine List.flatMap_eq_nil_iff.mpr fun e he => ?_
        obtain ⟨id, queue, key, record, rfl⟩ := hdiscard e he
        rfl
      rw [hnotes]
      exact .deadLetterDrained c' _

/-! ### Requeue -/

/-- A dead letter goes back in line. -/
def Requeued (queue : String) (now : Int64) (key : Bytes) (id : String) (e : Event) : Prop :=
  e = .requeue id queue key now

/-- The rows of a dead letter put back in line. -/
theorem JobsRepr.requeue {J : String → Option JobState} {rows : Rows} {idx : Indexes}
    (h : JobsRepr J rows idx) {id : String} {js : JobState} (hJ : J id = some js)
    {attempt : UInt32} {failedAt : Int64} {cause : DeadLetterCause} {reason : Option String}
    (hp : js.place = .dead attempt failedAt cause reason) (now : Stamp) :
    JobsRepr (Function.update J id (some (js.requeued now)))
      { rows with
        jobs := rows.jobs.insert (asBytes id) (JobValue.encode
          { queue := js.content.queue, job := requeuedJob (js.fullJob id attempt) now })
        payloads := match js.content.payload with
          | some p => rows.payloads.insert (asBytes id) (Message.encodeToVec p)
          | none => rows.payloads
        ready := rows.ready.insert ((js.requeued now).readyKey id) (KeyWriter.u32 1)
        deadLetter := rows.deadLetter.erase (js.deadKey id failedAt) }
      { idx with
        ready := idx.ready.insert ((js.requeued now).readyKey id) 1
        deadLetter := (idx.deadLetter.remove (js.deadKey id failedAt)).2 } := by
  have hadded := (h.unbury hJ hp).add_job { js.requeued now with place := .limbo }
    (Function.update_self ..) rfl
  exact (hadded.place_ready (Function.update_self ..) rfl 1).of_two_moves.of_two_moves

theorem requeueOne_realizes (a : Image) (queue : String) (now : Stamp) (key : Bytes) :
    Realizes (requeueOne queue now key) a fun r evs a' =>
      AtMostOne (Requeued queue now) key r evs ∧ PickTurn .deadLetter queue
        (fun js => some (js.requeued now)) (fun id => id) a key r a' := by
  by_cases hqueue : DeadLetterKey.queueOf key = some queue
  swap
  · refine Realizes.of_silent fun rows idx c hrep =>
      ⟨none, ?_, rfl, .miss (hrep.not_at rfl (.inr hqueue))⟩
    simp only [requeueOne, hqueue, ne_eq, not_false_iff, if_true, pure_run]
  refine realizes_iff.mpr fun rows idx c hrep => ?_
  cases hk : rows.deadLetter[key]? with
  | none =>
    refine ⟨none, rows, idx, c, [], a, ?_, .nil a, hrep, .nil c, rfl,
      .miss (hrep.not_at rfl (.inl hk))⟩
    simp only [requeueOne, hqueue, ne_eq, not_true, if_false, bind_run, txGet_run, Rows.get, hk,
      onIndexes_run, remove_deadLetter_of_none hrep hk, pure_run]
  | some value =>
    obtain ⟨id, js, attempt, failedAt, cause, reason, hJ, hp, rfl, rfl⟩ := hrep.jobs.of_dead_row hk
    obtain rfl : js.content.queue.1 = queue := by
      rw [JobState.deadKey, DeadLetterKey.queueOf_encode js.content.queue.2] at hqueue
      exact Option.some.inj hqueue
    have hmoved := hrep.setJob (hrep.jobs.requeue hJ hp now) (by simp [JobState.requeued]) rfl rfl
    refine ⟨some id, _, _, (c.readied js.content.queue).markDirty, _, _, ?_,
      .single (.requeue hJ hp now), hmoved, .of_readies rfl rfl rfl rfl (.of_eq rfl), ⟨_, rfl, rfl⟩,
      .hit ⟨js, _, hJ, rfl, JobState.row_deadLetter hp, rfl⟩⟩
    simp only [requeueOne, hqueue, ne_eq, not_true, if_false, bind_run, txGet_run, Rows.get, hk,
      Message.decode_encodeToVec, JobState.deadLetter, txInsert_run]
    cases hpayload : js.content.payload with
    | none =>
      simp only [JobState.fullJob, hpayload]
      rfl
    | some p =>
      simp only [JobState.fullJob, hpayload]
      rfl

theorem applyRequeueDeadLetters_realizes (a : Image) (queue : String) (keys : List Bytes)
    (now : Stamp) :
    Realizes (applyRequeueDeadLetters queue keys now) a fun r evs a' =>
      (evs.map Event.jobId? = r.jobIds.map some ∧
        ∀ e ∈ evs, ∃ id, ∃ key ∈ keys, e = .requeue id queue key now) ∧
      a.Picks .deadLetter queue (fun js => some (js.requeued now)) keys r.requeued r.missing
        r.jobIds a' := by
  refine Refinement.Realizes.bind (Refinement.Realizes.mapM_chained
    (P := AtMostOne (Requeued queue now)) (I := fun _ _ => True) (fun key keys a _ =>
      (requeueOne_realizes a queue now key).mono fun _ _ _ _ h => ⟨h.1, h.2, trivial⟩) keys a
      trivial) fun rs evs a' _ ⟨hgroup, hchain⟩ => ?_
  refine Refinement.Realizes.pure ?_
  rw [List.append_nil]
  refine ⟨⟨hgroup.map_eq_reduceOption fun key id e (he : e = _) => he ▸ rfl, fun e he => ?_⟩, ?_⟩
  · obtain ⟨key, hkey, id, -, rfl⟩ := hgroup.exists_result he
    exact ⟨id, key, hkey, rfl⟩
  · obtain ⟨ids, hids, hpicks⟩ := picks_of_turns (fun js js' id h => Option.some.inj h ▸ rfl) hchain
    rw [List.map_id'] at hids
    exact hids ▸ hpicks

/-! ### Dead-letter by hand -/

/-- A waiting job is given up by an admin. -/
def BuriedByHand (queue : String) (reason : Option String) (kept : Bool) (now : Int64) (_ : Bytes)
    (id : String) (e : Event) : Prop :=
  ∃ attempt, e = .bury id queue attempt now .admin reason kept

omit [Prost] in
/-- A waiting job after an admin has given it up. -/
def JobState.givenUp (reason : Option String) (kept : Bool) (now : Int64) (js : JobState) :
    Option JobState :=
  match js.place with
  | .ready attempt | .scheduled attempt _ =>
    if kept then some { js with place := .dead attempt now .admin reason } else none
  | _ => some js

omit [Prost] in
theorem JobState.content_givenUp {reason : Option String} {kept : Bool} {now : Int64}
    (js js' : JobState) (h : js.givenUp reason kept now = some js') :
    js'.content = js.content := by
  unfold JobState.givenUp at h
  split at h
  · split_ifs at h
    rw [← Option.some.inj h]
  · split_ifs at h
    rw [← Option.some.inj h]
  · rw [← Option.some.inj h]

/-- A job that is given up waits no more. -/
theorem JobState.row_givenUp {ks : KeyspaceName} (hks : ks = .ready ∨ ks = .scheduled)
    {reason : Option String} {kept : Bool} {now : Int64} (js js' : JobState) (id : String)
    (h : js.givenUp reason kept now = some js') : JobState.row ks id js' = none := by
  unfold JobState.givenUp at h
  split at h
  · split_ifs at h
    rw [← Option.some.inj h]
    rcases hks with rfl | rfl <;> rfl
  · split_ifs at h
    rw [← Option.some.inj h]
    rcases hks with rfl | rfl <;> rfl
  · rename_i hready hscheduled
    obtain rfl := Option.some.inj h
    rcases hks with rfl | rfl
    · simp only [JobState.row, JobState.readyRow]
    · simp only [JobState.row, JobState.scheduledRow]

omit [Prost] in
theorem attemptOfExactRow_u32 (attempt : UInt32) :
    attemptOfExactRow (KeyWriter.u32 attempt) = some attempt := by
  simp [attemptOfExactRow]

theorem deadLetterOne_ready_realizes (a : Image) (queue : String) (reason : Option String)
    (kept : Bool) (now : Int64) (key : Bytes) :
    Realizes (deadLetterOne queue .ready reason kept now key) a fun r evs a' =>
      AtMostOne (BuriedByHand queue reason kept now) key r evs ∧
        PickTurn .ready queue (JobState.givenUp reason kept now) (fun id => id) a key r a' := by
  -- a key of the queue reads as one
  have hmiss : (ReadyKey.decode key).map ReadyKey.queue ≠ some queue →
      ∀ id, ¬ a.At .ready queue key id := by
    rintro hne id ⟨js, value, -, rfl, hrow⟩
    obtain ⟨attempt, -, rfl⟩ := JobState.of_row_ready hrow
    rw [js.decode_readyKey id] at hne
    exact hne rfl
  cases hdecode : ReadyKey.decode key with
  | none =>
    refine Realizes.of_silent fun rows idx c hrep => ⟨none, ?_, rfl, .miss (hmiss ?_)⟩
    swap
    · simp [hdecode]
    simp only [deadLetterOne, deadLetterTarget, hdecode, bind_run, pure_run]
  | some rk =>
    by_cases hqueue : rk.queue = queue
    swap
    · refine Realizes.of_silent fun rows idx c hrep => ⟨none, ?_, rfl, .miss (hmiss ?_)⟩
      swap
      · simpa [hdecode] using hqueue
      simp only [deadLetterOne, deadLetterTarget, hdecode, ne_eq, hqueue, not_false_iff, if_true,
        bind_run, pure_run]
    refine realizes_iff.mpr fun rows idx c hrep => ?_
    cases hk : rows.ready[key]? with
    | none =>
      have hidx : { idx with ready := (idx.ready.remove key).2 } = idx := by
        rw [ReadyIndex.remove, hrep.jobs.ready_entry_eq_none hk]
      refine ⟨none, rows, idx, c, [], a, ?_, .nil a, hrep, .nil c, rfl,
        .miss (hrep.not_at rfl (.inl hk))⟩
      simp only [deadLetterOne, deadLetterTarget, hdecode, hqueue, ne_eq, not_true, if_false,
        bind_run, txGet_run, Rows.get, hk, Option.isNone_none, if_true, onIndexes_run, hidx,
        pure_run]
    | some value =>
      obtain ⟨id, js, attempt, hJ, hp, rfl⟩ := hrep.jobs.of_ready_row hk
      obtain rfl := Option.some.inj (hdecode.symm.trans (js.decode_readyKey id))
      obtain rfl : js.content.queue.1 = queue := hqueue
      have hlive : ¬ js.place.IsDead := by simp [hp, Place.IsDead]
      have hjobs := hrep.jobs.get_jobs hJ hlive
      have hpayloads := hrep.jobs.get_payloads hJ hlive
      have hmoved := (hrep.jobs.unplace_ready hJ hp).giveUp (Function.update_self ..) rfl attempt
        now .admin reason kept
      refine ⟨some id, _, _, (c.deadLettered js.content.queue "admin").markDirty, _, _, ?_,
        .single (.bury hJ .admin (.inl hp) reason kept),
        hrep.setJob hmoved.of_two_moves (by cases kept <;> simp) rfl rfl,
        .of_writes rfl rfl rfl rfl (.deadLettered c js.content.queue "admin"), ⟨_, rfl, _, rfl⟩,
        .hit ⟨js, _, hJ, rfl, JobState.row_ready hp, ?_⟩⟩
      swap
      · simp only [JobState.givenUp, hp]
      simp only [deadLetterOne, deadLetterTarget, hdecode, ne_eq, not_true, if_false, bind_run,
        txGet_run, Rows.get, hk, Option.isNone_some, Bool.false_eq_true, pure_run, hjobs,
        JobState.decode_jobValue, waitingAttempt, getIndexes_run, ReadyIndex.attempt,
        hrep.jobs.get_ready_entry hJ hp, Option.getD_some,
        maybeStoreDeadLetter_run rows hjobs hpayloads, txRemove_run, onIndexes_run, onCycle_run,
        fromUtf8Lossy_asBytes]
      rfl

theorem deadLetterOne_scheduled_realizes (a : Image) (queue : String) (reason : Option String)
    (kept : Bool) (now : Int64) (key : Bytes) :
    Realizes (deadLetterOne queue .scheduled reason kept now key) a fun r evs a' =>
      AtMostOne (BuriedByHand queue reason kept now) key r evs ∧
        PickTurn .scheduled queue (JobState.givenUp reason kept now) (fun id => id) a key r a' := by
  refine realizes_iff.mpr fun rows idx c hrep => ?_
  cases hk : rows.scheduled[key]? with
  | none =>
    have hidx : { idx with scheduled := (idx.scheduled.remove key).2 } = idx := by
      rw [TimerIndex.remove, hrep.jobs.scheduled_entry_eq_none hk]
    refine ⟨none, rows, idx, c, [], a, ?_, .nil a, hrep, .nil c, rfl,
      .miss (hrep.not_at rfl (.inl hk))⟩
    cases hid : TimerKey.jobIdOf key with
    | none => simp only [deadLetterOne, deadLetterTarget, hid, bind_run, pure_run]
    | some id =>
      simp only [deadLetterOne, deadLetterTarget, hid, bind_run, txGet_run, Rows.get, hk,
        Option.isNone_none, if_true, onIndexes_run, hidx, pure_run]
  | some value =>
    obtain ⟨id, js, attempt, deadline, hJ, hp, rfl⟩ := hrep.jobs.of_scheduled_row hk
    have hlive : ¬ js.place.IsDead := by simp [hp, Place.IsDead]
    have hjobs := hrep.jobs.get_jobs hJ hlive
    have hpayloads := hrep.jobs.get_payloads hJ hlive
    obtain rfl := Option.some.inj (hk.symm.trans (hrep.jobs.get_scheduled hJ hp))
    by_cases hqueue : js.content.queue.1 = queue
    swap
    · refine ⟨none, rows, idx, c, [], a, ?_, .nil a, hrep, .nil c, rfl,
        .miss (Image.not_at_of_row hJ (JobState.row_scheduled hp) hqueue)⟩
      simp only [deadLetterOne, deadLetterTarget, TimerKey.jobIdOf_encode, bind_run, txGet_run,
        Rows.get, hk, Option.isNone_some, Bool.false_eq_true, if_false, pure_run, hjobs,
        JobState.decode_jobValue, ne_eq, hqueue, not_false_iff, if_true]
    subst hqueue
    have hmoved := (hrep.jobs.unplace_scheduled hJ hp).giveUp (Function.update_self ..) rfl attempt
      now .admin reason kept
    refine ⟨some id, _, _, (c.deadLettered js.content.queue "admin").markDirty, _, _, ?_,
      .single (.bury hJ .admin (.inr ⟨deadline, hp⟩) reason kept),
      hrep.setJob hmoved.of_two_moves (by cases kept <;> simp) rfl rfl,
      .of_writes rfl rfl rfl rfl (.deadLettered c js.content.queue "admin"), ⟨_, rfl, _, rfl⟩,
      .hit ⟨js, _, hJ, rfl, JobState.row_scheduled hp, ?_⟩⟩
    swap
    · simp only [JobState.givenUp, hp]
    simp only [deadLetterOne, deadLetterTarget, TimerKey.jobIdOf_encode, bind_run, txGet_run,
      Rows.get, hk, Option.isNone_some, Bool.false_eq_true, if_false, pure_run, hjobs,
      JobState.decode_jobValue, ne_eq, not_true, waitingAttempt, Option.bind_some,
      attemptOfExactRow_u32, Option.getD_some, maybeStoreDeadLetter_run rows hjobs hpayloads,
      txRemove_run, onIndexes_run, onCycle_run, fromUtf8Lossy_asBytes]
    rfl

omit [Prost] in
/-- The keyspace that a dead-letter by hand takes jobs from. -/
def PeekState.keyspace : PeekState → KeyspaceName
  | .ready => .ready
  | _ => .scheduled

theorem applyDeadLetterJobs_realizes (a : Image) (queue : String) {state : PeekState}
    (hstate : state = .ready ∨ state = .scheduled) (keys : List Bytes) (reason : Option String)
    (kept : Bool) (now : Int64) :
    Realizes (applyDeadLetterJobs queue state keys reason kept now) a fun r evs a' =>
      (evs.map Event.jobId? = r.jobIds.map some ∧
        ∀ e ∈ evs, ∃ id attempt, e = .bury id queue attempt now .admin reason kept) ∧
      a.Picks state.keyspace queue (JobState.givenUp reason kept now) keys r.deadLettered r.missing
        r.jobIds a' := by
  have hbody : ∀ key a, Realizes (deadLetterOne queue state reason kept now key) a fun r evs a' =>
      AtMostOne (BuriedByHand queue reason kept now) key r evs ∧ PickTurn state.keyspace queue
        (JobState.givenUp reason kept now) (fun id => id) a key r a' ∧ True := by
    intro key a
    rcases hstate with rfl | rfl
    · exact (deadLetterOne_ready_realizes a queue reason kept now key).mono
        fun _ _ _ _ h => ⟨h.1, h.2, trivial⟩
    · exact (deadLetterOne_scheduled_realizes a queue reason kept now key).mono
        fun _ _ _ _ h => ⟨h.1, h.2, trivial⟩
  have hks : state.keyspace = .ready ∨ state.keyspace = .scheduled := by
    rcases hstate with rfl | rfl
    · exact .inl rfl
    · exact .inr rfl
  rw [applyDeadLetterJobs, if_pos hstate]
  refine Refinement.Realizes.bind (Refinement.Realizes.mapM_chained (I := fun _ _ => True)
    (fun key keys a _ => hbody key a) keys a trivial) fun rs evs a' _ ⟨hgroup, hchain⟩ => ?_
  refine Refinement.Realizes.pure ?_
  rw [List.append_nil]
  refine ⟨⟨hgroup.map_eq_reduceOption fun key id e ⟨attempt, he⟩ => he ▸ rfl, fun e he => ?_⟩, ?_⟩
  · obtain ⟨key, -, id, -, attempt, rfl⟩ := hgroup.exists_result he
    exact ⟨id, attempt, rfl⟩
  · obtain ⟨ids, hids, hpicks⟩ := picks_of_turns (JobState.row_givenUp hks) hchain
    rw [List.map_id'] at hids
    exact hids ▸ hpicks

theorem applyDeadLetterJobs_rejects (a : Image) (queue : String) {state : PeekState}
    (hstate : ¬ (state = .ready ∨ state = .scheduled)) (keys : List Bytes)
    (reason : Option String) (kept : Bool) (now : Int64) :
    Rejects (applyDeadLetterJobs queue state keys reason kept now) a fun e =>
      e.code = .invalidArgument := by
  intro s _
  rw [applyDeadLetterJobs, if_neg hstate]
  exact ⟨_, rfl, rfl⟩

/-! ### Delete -/

/-- A dead letter is deleted. -/
def Deleted (queue : String) (key : Bytes) (r : Option String) (e : Event) : Prop :=
  ∃ id record, r = some id ∧ e = .discard id queue key record

theorem deleteOne_realizes (a : Image) (queue : String) (key : Bytes) :
    Realizes (deleteOne queue key) a fun r evs a' => AtMostOne (Deleted queue) key r evs ∧
      PickTurn .deadLetter queue (fun _ => none) some a key r a' := by
  refine Realizes.bind_getIndexes fun rows₀ idx₀ hrep₀ => ?_
  -- the index names the queue of every dead letter
  have hmiss : idx₀.deadLetter.keys[key]? ≠ some queue → ∀ id, ¬ a.At .deadLetter queue key id := by
    rintro hne id ⟨js, value, hJ, rfl, hrow⟩
    obtain ⟨attempt, failedAt, cause, reason, hp, rfl⟩ := JobState.of_row_deadLetter hrow
    exact hne (hrep₀.jobs.get_dead_entry hJ hp)
  cases hk : idx₀.deadLetter.keys[key]? with
  | none => exact Refinement.Realizes.pure ⟨rfl, .miss (hmiss (by simp [hk]))⟩
  | some owner =>
    by_cases hqueue : owner = queue
    swap
    · simp only [hqueue, if_false]
      exact Refinement.Realizes.pure ⟨rfl, .miss (hmiss (by simpa [hk] using hqueue))⟩
    refine Realizes.of_event fun rows idx c hrep => ?_
    obtain ⟨id, js, attempt, failedAt, cause, reason, hJ, hp, rfl, rfl⟩ :=
      hrep₀.jobs.of_dead_entry hk
    refine ⟨some (some id), _, _, c.markDirty, _, _, ?_, .discard hJ hp,
      hrep.setJob (hrep.jobs.unbury hJ hp) (by simp) rfl rfl,
      .of_writes rfl rfl rfl rfl (.of_eq rfl), ⟨_, rfl, id, _, rfl, by rw [hqueue]⟩,
      .hit ⟨js, _, hJ, hqueue, JobState.row_deadLetter hp, rfl⟩⟩
    simp only [hqueue, if_true, bind_run, onIndexes_run, txRemove_run, onCycle_run, pure_run,
      jobIdOf_deadKey]
    rfl

theorem applyDeleteDeadLetters_realizes (a : Image) (queue : String) (keys : List Bytes) :
    Realizes (applyDeleteDeadLetters queue keys) a fun r evs a' =>
      (∀ e ∈ evs, ∃ id record, ∃ key ∈ keys, e = .discard id queue key record) ∧
      a.Picks .deadLetter queue (fun _ => none) keys r.deleted r.missing r.jobIds a' := by
  refine Refinement.Realizes.bind (Refinement.Realizes.mapM_chained
    (P := AtMostOne (Deleted queue)) (I := fun _ _ => True) (fun key keys a _ =>
      (deleteOne_realizes a queue key).mono fun _ _ _ _ h => ⟨h.1, h.2, trivial⟩) keys a
      trivial) fun rs evs a' _ ⟨hgroup, hchain⟩ => ?_
  refine Refinement.Realizes.pure ?_
  rw [List.append_nil]
  refine ⟨fun e he => ?_, ?_⟩
  · obtain ⟨key, hkey, r, -, id, record, -, rfl⟩ := hgroup.exists_result he
    exact ⟨id, record, key, hkey, rfl⟩
  · obtain ⟨ids, hids, hpicks⟩ := picks_of_turns (fun js js' id h => by cases h) hchain
    have hread : rs.reduceOption.reduceOption = ids := by
      rw [hids, List.reduceOption, List.filterMap_map]
      exact List.filterMap_some
    exact hread.symm ▸ hpicks

end Sepp
