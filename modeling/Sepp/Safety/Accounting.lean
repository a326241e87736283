import Sepp.Run.Rounds
import Sepp.Spec.Flow
import Sepp.Spec.Standing
import Sepp.Wire.Codec

/-!
# The counters account for every job

The live jobs of a queue are those it was given, by enqueues and by requeues, less those that were
acked, dead-lettered or purged. Enqueues, acks and dead letters are in the metrics of the committed
cycles, requeues in the answers to the requests, and a purged job is a record that is gone. A cycle
that is rolled back reports nothing and changes nothing, and neither does a refused operation.

## Main definitions

* `cycleMetrics` — the metrics of the committed cycles.
* `Rows.lost`, `purgedLive` — the live jobs that purges remove.
* `Accounts` — the balance of a queue.

## Main results

* `TurnStep.balance` — the balance over one call.
* `accounts_of_rounds`.
-/

open Std

namespace Sepp

section Definitions

variable [Prost]

/-- The records of jobs of the queue that are in `rows` and no more in `rows'`. A live job has a
record, and a dead letter has none. -/
def Rows.lost (rows rows' : Rows) (queue : String) : ℕ :=
  Tally.count (fun key _ => if rows'.jobs.contains key then none else rows.recordQueue key)
    rows.jobs queue

/-- The store after a call; a refused call leaves it as it is. -/
def Server.follow (server : Server) : Call → Server
  | .answered op (.ok _) => (server.perform op).2
  | .answered _ (.error _) => server
  | .restart => server.rolledBack

/-- The live jobs of the queue that the call purges. -/
def Call.purgedOf (queue : String) (server : Server) : Call → ℕ
  | .answered (.purgeQueueChunk owner max) (.ok _) =>
    server.rows.lost (server.perform (.purgeQueueChunk owner max)).2.rows queue
  | _ => 0

/-- The live jobs of the queue that are removed by the purges among the calls. -/
def purgedLive (queue : String) : Server → List Call → ℕ
  | _, [] => 0
  | server, call :: calls =>
    call.purgedOf queue server + purgedLive queue (server.follow call) calls

omit [Prost] in
/-- `RequeueOutcome.requeued` of a request for the queue. -/
def Call.requeuedOf (queue : String) : Call → ℕ
  | .answered (.requeueDeadLetters owner _ _) (.ok (.requeueDeadLetters r)) =>
    if owner = queue then r.requeued else 0
  | _ => 0

/-- The metrics of the committed cycles. -/
def cycleMetrics : Server → List Round → List CycleMetrics
  | _, [] => []
  | server, round :: rounds =>
    (round.run server).metrics.toList ++ cycleMetrics (round.run server).server rounds

omit [Prost] in
/-- The sum of a counter. -/
def counted (metrics : List CycleMetrics) (queue : String) (k : Counter) : ℕ :=
  (metrics.map (·.count queue k)).sum

/-- The operation moves live jobs from one place of their queue to another: a reserve, an extend,
or a nack that retries. -/
def Op.moves : Op → OpOutcome → Bool
  | .reserve .., _ | .extend .., _ => true
  | .nack .., .nack r => !r.deadLettered
  | _, _ => false

/-- What an operation may do to the accounts of a queue in a transaction. -/
structure Op.KeepsAccounts (op : Op) (tx : TxState) (queue : String) : Prop where
  /-- A refused operation changes neither the store nor the record of the cycle. -/
  refused : ∀ e tx', applyOp op tx = .error e tx' → e.code ≠ .internal →
    tx'.server = tx.server ∧ tx'.cycle = tx.cycle
  /-- A move changes no side of the balance. -/
  moved : ∀ r tx', applyOp op tx = .ok r tx' → op.moves r = true →
    tx'.indexes.liveDepth queue = tx.indexes.liveDepth queue ∧
      ∀ k, k = .enqueued ∨ k = .acked ∨ k = .deadLettered →
        tx'.cycle.metrics.map (·.count queue k) = tx.cycle.metrics.map (·.count queue k)
  /-- A sweep takes the jobs that it dead-letters away; promotions and redeliveries do not count. -/
  swept : ∀ now budget cutoff kept r tx', op = .sweep now budget cutoff kept →
    applyOp op tx = .ok r tx' → ∃ n, tx'.indexes.liveDepth queue + n = tx.indexes.liveDepth queue ∧
      tx'.cycle.metrics.map (·.count queue .deadLettered) =
        tx.cycle.metrics.map (·.count queue .deadLettered + n) ∧
      ∀ k, k = .enqueued ∨ k = .acked →
        tx'.cycle.metrics.map (·.count queue k) = tx.cycle.metrics.map (·.count queue k)

/-- The accounts of a queue over rounds: its live jobs are the jobs that it was given, less those
that left it, and a cycle that is rolled back changes nothing. -/
structure Accounts (rounds : List Round) (queue : String) : Prop where
  balance : ((Server.after {} rounds).indexes.depthCounts queue).ready +
      ((Server.after {} rounds).indexes.depthCounts queue).scheduled +
      ((Server.after {} rounds).indexes.depthCounts queue).inflight =
    (counted (cycleMetrics {} rounds) queue .enqueued +
      ((committedCalls {} rounds).map (Call.requeuedOf queue)).sum -
      counted (cycleMetrics {} rounds) queue .acked -
      counted (cycleMetrics {} rounds) queue .deadLettered -
      purgedLive queue {} (committedCalls {} rounds) : ℤ)
  rolledBack : ∀ before round after, rounds = before ++ round :: after →
    (round.run (Server.after {} before)).metrics = none →
    (round.run (Server.after {} before)).server = Server.after {} before

end Definitions

/-! ### The jobs that a purge removes -/

section Lost

variable [Prost] {a a' : Image} {rows rows' : Rows} {idx idx' : Indexes} {queue owner : String}
  {evs : List Event}

/-- A purge takes jobs away and leaves the others as they are. -/
theorem jobs_of_purges (h : Trace Step a evs a') (hevs : ∀ e ∈ evs, PurgesQueue owner e)
    (id : String) : a'.jobs id = a.jobs id ∨ a'.jobs id = none := by
  refine h.preserves (P := fun b => b.jobs id = a.jobs id ∨ b.jobs id = none)
    (fun b e c he hstep hb => ?_) (.inl rfl)
  by_cases hid : e.jobId? = some id
  swap
  · rwa [hstep.jobs_of_ne hid]
  rcases hevs e he with ⟨id', rfl⟩ | ⟨id', key, record, rfl⟩ | ⟨name, -, rfl⟩
  · obtain rfl := Option.some.inj hid
    cases hstep
    exact .inr (Function.update_self ..)
  · obtain rfl := Option.some.inj hid
    cases hstep
    exact .inr (Function.update_self ..)
  · cases hid

/-- The records that are gone are the live jobs that are gone. -/
theorem Represents.lost_add (h : Represents a rows idx) (h' : Represents a' rows' idx')
    (hjobs : ∀ id, a'.jobs id = a.jobs id ∨ a'.jobs id = none) (queue : String) :
    rows.lost rows' queue + a'.live queue = a.live queue := by
  have hlost : rows.lost rows' queue =
      census (fun id js => JobState.LiveIn queue id js ∧ a'.jobs id = none) a.jobs := by
    rw [Rows.lost, h.jobs.body.jobs.count_eq_census]
    refine census_congr fun id js hJ => ?_
    by_cases hdead : js.place.IsDead
    · simp [JobState.jobRow, JobState.LiveIn, hdead]
    have hgone : asBytes id ∉ rows'.jobs ↔ a'.jobs id = none := by
      rw [h'.mem_jobs_iff]
      rcases hjobs id with heq | hnone
      · simp [heq, hJ, hdead]
      · simp [hnone]
    simp [JobState.jobRow, JobState.LiveIn, hdead, h.recordQueue_eq hJ hdead, ← hgone,
      and_comm]
  have hkept : a'.live queue =
      census (fun id js => JobState.LiveIn queue id js ∧ a'.jobs id ≠ none) a.jobs := by
    have hset : Inhabits (JobState.LiveIn queue) a'.jobs =
        Inhabits (fun id js => JobState.LiveIn queue id js ∧ a'.jobs id ≠ none) a.jobs := by
      ext id
      rcases hjobs id with heq | hnone
      · simp only [Inhabits, Set.mem_ofPred_eq, heq]
        refine exists_congr fun js => and_congr_right fun hJ => ?_
        simp [hJ]
      · simp [Inhabits, hnone]
    exact congrArg Set.ncard hset
  rw [hlost, hkept, ← census_or h.finite_jobs fun id js _ hgone hkept => hkept.2 hgone.2]
  refine census_congr fun id js _ => ?_
  rw [← and_or_left, and_iff_left (Classical.em _)]
  rfl

/-- The live jobs that a purge removes are in its events. -/
theorem Represents.lost_eq (h : Represents a rows idx) (h' : Represents a' rows' idx')
    (htrace : Trace Step a evs a') (hevs : ∀ e ∈ evs, PurgesQueue owner e) (queue : String) :
    evs.countP (Event.purges queue) = rows.lost rows' queue := by
  have hbalance := live_of_trace htrace h.finite queue
  have hlost := h.lost_add h' (jobs_of_purges htrace hevs) queue
  have hnotes : evs.flatMap Event.notes = [] := by
    refine List.flatMap_eq_nil_iff.mpr fun e he => ?_
    rcases hevs e he with ⟨id, rfl⟩ | ⟨id, key, record, rfl⟩ | ⟨name, -, rfl⟩ <;> rfl
  have hrequeues : evs.countP (Event.requeues queue) = 0 := by
    refine List.countP_eq_zero.mpr fun e he => ?_
    rcases hevs e he with ⟨id, rfl⟩ | ⟨id, key, record, rfl⟩ | ⟨name, -, rfl⟩ <;>
      simp [Event.requeues]
  simp only [hnotes, hrequeues, List.count_nil] at hbalance
  omega

end Lost

/-! ### One call -/

section Turns

variable [Prost] {server server' : Server} {op : Op} {r : OpOutcome} {s s' : Server × Image}
  {t : Turn}

/-- A call that goes through does what its operation does when no read fails. -/
theorem CallStep.perform_eq (h : CallStep server (.answered op (.ok r)) server') :
    server.perform op = (.answered op (.ok r), server') := by
  obtain ⟨cycle, tx, hrun, rfl⟩ := h.exists_calm
  obtain ⟨c, hc⟩ :=
    (oblivious_applyOp op).cycle ⟨server.rows, server.indexes, cycle, fun _ => none⟩ {}
  rw [hrun] at hc
  rw [Server.perform, hc]
  rfl

theorem TurnStep.follow_eq (h : TurnStep s t s') (hshows : s.1.Shows s.2) :
    s.1.follow t.call = s'.1 := by
  have hstay : t.events = [] → s'.1 = s.1 := by
    intro hnil
    have htrace := h.events
    have hshows' := h.shows
    rw [hnil] at htrace
    generalize s'.2 = a' at htrace hshows'
    cases htrace
    exact congrArg₂ Server.mk (hshows'.rows_eq hshows) (hshows'.idx_eq hshows)
  have hcall := h.call
  have hexplained := h.explained
  unfold Server.follow
  split
  · rename_i op r heq
    rw [heq] at hcall
    rw [hcall.perform_eq]
  · rename_i op e heq
    rw [heq] at hexplained
    exact (hstay hexplained).symm
  · rename_i heq
    rw [heq] at hexplained
    rw [hshows.rolledBack_eq]
    exact (hstay hexplained).symm

/-- The answer to a requeue names the jobs that it counts. -/
theorem CallStep.requeued_eq {queue : String} {keys : List Bytes} {now : Int64}
    {r : RequeueOutcome} (h : CallStep server
      (.answered (.requeueDeadLetters queue keys now) (.ok (.requeueDeadLetters r))) server') :
    r.requeued = r.jobIds.length := by
  cases h with
  | done cycle faults hrun =>
    simp only [applyOp, applyRequeueDeadLetters, bind_run] at hrun
    split at hrun
    · rename_i heq
      cases hrun
      split at heq <;> cases heq
      rfl
    · cases hrun

theorem TurnStep.requeues_eq (h : TurnStep s t s') (queue : String) :
    t.events.countP (Event.requeues queue) = t.call.requeuedOf queue := by
  have hexplained := h.explained
  have hcall := h.call
  unfold Call.requeuedOf
  split
  · rename_i owner keys now r heq
    rw [heq] at hexplained hcall
    obtain ⟨hids, hevs⟩ := hexplained
    have hlength : t.events.length = r.jobIds.length := by simpa using congrArg List.length hids
    rw [hcall.requeued_eq, ← hlength]
    split_ifs with hqueue
    · refine List.countP_eq_length.mpr fun e he => ?_
      obtain ⟨id, key, -, rfl⟩ := hevs e he
      simpa [Event.requeues] using hqueue
    · refine List.countP_eq_zero.mpr fun e he => ?_
      obtain ⟨id, key, -, rfl⟩ := hevs e he
      simpa [Event.requeues] using hqueue
  · rename_i hother
    refine List.countP_eq_zero.mpr fun e he hrequeues => ?_
    obtain ⟨op, r, heq, hmakes⟩ := hexplained.exists_op he
    cases e with
    | requeue id owner key now =>
      obtain ⟨keys, rfl, -⟩ := hmakes.of_requeue
      rw [heq] at hexplained
      cases r with
      | requeueDeadLetters r => exact hother _ _ _ _ heq
      | _ => exact hexplained
    | _ => cases hrequeues

theorem TurnStep.purges_eq (h : TurnStep s t s') (hshows : s.1.Shows s.2) (queue : String) :
    t.events.countP (Event.purges queue) = t.call.purgedOf queue s.1 := by
  have hexplained := h.explained
  have hcall := h.call
  unfold Call.purgedOf
  split
  · rename_i owner max r heq
    rw [heq] at hexplained hcall
    rw [hcall.perform_eq]
    cases r with
    | purgeQueueChunk r => exact hshows.lost_eq h.shows h.events hexplained queue
    | _ => exact hexplained.elim
  · rename_i hother
    refine List.countP_eq_zero.mpr fun e he hpurges => ?_
    obtain ⟨op, r, heq, hmakes⟩ := hexplained.exists_op he
    cases e with
    | purge id owner =>
      obtain ⟨max, rfl⟩ := hmakes.of_purge
      exact hother _ _ _ heq
    | _ => cases hpurges

/-- The balance of a queue over one call: what it notes in the counters, what it requeues and what
it purges is what it does to the live jobs. -/
theorem TurnStep.balance (h : TurnStep s t s') (hshows : s.1.Shows s.2) (queue : String) :
    s'.1.indexes.liveDepth queue + (t.events.flatMap Event.notes).count (.acked, queue) +
        (t.events.flatMap Event.notes).count (.deadLettered, queue) +
        t.call.purgedOf queue s.1 =
      s.1.indexes.liveDepth queue + (t.events.flatMap Event.notes).count (.enqueued, queue) +
        t.call.requeuedOf queue := by
  have hbalance := live_of_trace h.events hshows.finite queue
  rwa [h.requeues_eq, h.purges_eq hshows, ← hshows.liveDepth_eq, ← h.shows.liveDepth_eq] at hbalance

/-- The balance of a queue over calls. -/
theorem balance_of_turns {turns : List Turn} (h : Trace TurnStep s turns s')
    (hshows : s.1.Shows s.2) (queue : String) :
    s'.1.indexes.liveDepth queue +
        ((turns.flatMap Turn.events).flatMap Event.notes).count (.acked, queue) +
        ((turns.flatMap Turn.events).flatMap Event.notes).count (.deadLettered, queue) +
        purgedLive queue s.1 (turns.map Turn.call) =
      s.1.indexes.liveDepth queue +
        ((turns.flatMap Turn.events).flatMap Event.notes).count (.enqueued, queue) +
        ((turns.map Turn.call).map (Call.requeuedOf queue)).sum := by
  induction h with
  | nil => rfl
  | cons hturn _ ih =>
    have hfirst := hturn.balance hshows queue
    have hrest := ih hturn.shows
    simp only [List.flatMap_cons, List.flatMap_append, List.count_append, List.map_cons,
      List.sum_cons, purgedLive, hturn.follow_eq hshows]
    omega

/-- The purges among calls that go on. -/
theorem purgedLive_append {turns : List Turn} (h : Trace TurnStep s turns s')
    (hshows : s.1.Shows s.2) (queue : String) (calls : List Call) :
    purgedLive queue s.1 (turns.map Turn.call ++ calls) =
      purgedLive queue s.1 (turns.map Turn.call) + purgedLive queue s'.1 calls := by
  induction h with
  | nil => exact (Nat.zero_add _).symm
  | cons hturn _ ih =>
    simp only [List.map_cons, List.cons_append, purgedLive, hturn.follow_eq hshows,
      ih hturn.shows, Nat.add_assoc]

end Turns

/-! ### Runs of cycles -/

section Rounds

variable [Prost] {rounds : List Round} {server : Server} {a : Image} {ids : List String}

theorem counted_cycleMetrics_cons (server : Server) (round : Round) (rounds : List Round)
    (queue : String) (k : Counter) :
    counted (cycleMetrics server (round :: rounds)) queue k =
      round.count server queue k +
        counted (cycleMetrics (round.run server).server rounds) queue k := by
  rw [counted, cycleMetrics, List.map_append, List.sum_append, counted, Round.count]
  cases (round.run server).metrics <;> rfl

/-- The balance of a queue over rounds. -/
theorem balance_of_rounds (hshows : server.Shows a) (hknows : a.Knows ids)
    (hwf : ∀ round ∈ rounds, ∀ op ∈ round.ops, op.WellFormed)
    (hfresh : (ids ++ jobIdsOf (rounds.flatMap Round.ops)).Nodup)
    (hrecords : ∀ round ∈ rounds, round.records = true) (queue : String) :
    (server.after rounds).indexes.liveDepth queue +
        counted (cycleMetrics server rounds) queue .acked +
        counted (cycleMetrics server rounds) queue .deadLettered +
        purgedLive queue server (committedCalls server rounds) =
      server.indexes.liveDepth queue + counted (cycleMetrics server rounds) queue .enqueued +
        ((committedCalls server rounds).map (Call.requeuedOf queue)).sum := by
  induction rounds generalizing server a ids with
  | nil => rfl
  | cons round rounds ih =>
    rw [List.flatMap_cons, jobIdsOf_append, ← List.append_assoc] at hfresh
    obtain ⟨turns, a', hcalls, htrace, hshows', hknows', hcount⟩ :=
      round.exists_counted_turns hshows hknows (hwf round List.mem_cons_self)
        (List.nodup_append.mp hfresh).1
    have hcount := hcount (hrecords round List.mem_cons_self) queue
    have hfirst := balance_of_turns htrace hshows queue
    have hpurged := purgedLive_append htrace hshows queue
      (committedCalls (round.run server).server rounds)
    have hrest := ih hshows' hknows' (fun r hr => hwf r (List.mem_cons_of_mem _ hr)) hfresh
      fun r hr => hrecords r (List.mem_cons_of_mem _ hr)
    have hafter : server.after (round :: rounds) = (round.run server).server.after rounds := rfl
    rw [hcalls] at hfirst hpurged
    dsimp only at hfirst hpurged
    simp only [counted_cycleMetrics_cons, committedCalls, List.map_append, List.sum_append, hcount,
      hafter, hpurged]
    omega

omit [Prost] in
/-- The events of a move are noted in no counter of the balance. -/
theorem Op.moves_notes {op : Op} {r : OpOutcome} {evs : List Event} (h : op.moves r = true)
    (hexp : Explains op r evs) {k : Counter}
    (hk : k = .enqueued ∨ k = .acked ∨ k = .deadLettered) (queue : String) :
    (evs.flatMap Event.notes).count (k, queue) = 0 := by
  have hmoves : ∀ e ∈ evs, (∃ job expires, e = .lease job expires) ∨
      (∃ id attempt expires, e = .extend id attempt expires) ∨
      ∃ id owner attempt delayed, e = .retry id owner attempt delayed := by
    intro e he
    cases op with
    | reserve =>
      obtain ⟨job, rfl⟩ := hexp.makes he
      exact .inl ⟨job, _, rfl⟩
    | extend =>
      obtain rfl := hexp.makes he
      exact .inr (.inl ⟨_, _, _, rfl⟩)
    | nack =>
      cases r with
      | nack r =>
        have hretry : ¬ r.deadLettered = true := by simpa [Op.moves] using h
        obtain ⟨-, owner, rfl⟩ := (if_neg hretry).mp hexp
        obtain rfl := List.mem_singleton.mp he
        exact .inr (.inr ⟨_, _, _, _, rfl⟩)
      | _ => cases h
    | _ => cases h
  refine List.count_eq_zero.mpr fun hmem => ?_
  obtain ⟨e, he, hnote⟩ := List.mem_flatMap.mp hmem
  rcases hmoves e he with ⟨_, _, rfl⟩ | ⟨_, _, _, rfl⟩ | ⟨_, _, _, _, rfl⟩ <;>
    rcases hk with rfl | rfl | rfl <;> simp [Event.notes] at hnote

omit [Prost] in
/-- The events of a sweep are noted neither as enqueues nor as acks. -/
theorem sweep_notes {now : Int64} {cutoff : Option Int64} {kept : Bool} {evs : List Event}
    (h : ∀ e ∈ evs, SweepEvent now cutoff kept e) {k : Counter} (hk : k = .enqueued ∨ k = .acked)
    (queue : String) : (evs.flatMap Event.notes).count (k, queue) = 0 := by
  refine List.count_eq_zero.mpr fun hmem => ?_
  obtain ⟨e, he, hnote⟩ := List.mem_flatMap.mp hmem
  rcases hk with rfl | rfl <;> cases h e he <;> simp [Event.notes] at hnote

/-- A run keeps the accounts of every queue, operation by operation. -/
theorem Run.keepsAccounts {calls : List Call} {op : Op} {result : Except Status OpOutcome}
    {tx : TxState} (h : Run calls tx.server)
    (hadm : Admissible (calls ++ [.answered op result])) (queue : String) :
    op.KeepsAccounts tx queue := by
  obtain ⟨-, a, -, -, hshows, hknows⟩ := h.exists_turns
  have hwf : op.WellFormed :=
    hadm.wellFormed _ (List.mem_append_right _ List.mem_cons_self)
  have hfresh : a.Fresh op.jobs := hadm.fresh_of_knows hknows
  refine ⟨fun e tx' hrun hcode => applyOp_refused hshows hwf hfresh hrun hcode,
    fun r tx' hrun hmoves => ?_, fun now budget cutoff kept r tx' hop hrun => ?_⟩
  · obtain ⟨evs, a', hturn, hrec⟩ := applyOp_turn hshows hwf hfresh hrun
    have hzero : ∀ k, k = .enqueued ∨ k = .acked ∨ k = .deadLettered →
        (evs.flatMap Event.notes).count (k, queue) = 0 := fun k hk =>
      Op.moves_notes hmoves hturn.explained hk queue
    refine ⟨?_, fun k hk => ?_⟩
    · have hbalance := hturn.balance hshows queue
      have hpurged : (Call.answered op (.ok r)).purgedOf queue tx.server = 0 := by
        cases op <;> first | rfl | cases hmoves
      have hrequeued : (Call.answered op (.ok r)).requeuedOf queue = 0 := by
        cases op <;> first | rfl | cases hmoves
      simp only [hzero _ (.inl rfl), hzero _ (.inr (.inl rfl)), hzero _ (.inr (.inr rfl)), hpurged,
        hrequeued, Nat.add_zero] at hbalance
      exact hbalance
    · have hcounted := hrec.counted queue k
      simpa only [hzero k hk, Nat.add_zero] using hcounted
  · subst hop
    obtain ⟨evs, a', hturn, hrec⟩ := applyOp_turn hshows hwf hfresh hrun
    have hevs : ∀ e ∈ evs, SweepEvent now cutoff kept e := by
      have hexplained := hturn.explained
      cases r with
      | sweep n => exact hexplained
      | _ => exact hexplained.elim
    have hzero : ∀ k, k = .enqueued ∨ k = .acked →
        (evs.flatMap Event.notes).count (k, queue) = 0 := fun k hk => sweep_notes hevs hk queue
    refine ⟨(evs.flatMap Event.notes).count (.deadLettered, queue), ?_,
      hrec.counted queue .deadLettered, fun k hk => ?_⟩
    · have hbalance := hturn.balance hshows queue
      simp only [hzero _ (.inl rfl), hzero _ (.inr rfl), Call.purgedOf, Call.requeuedOf,
        Nat.add_zero] at hbalance
      exact hbalance
    · have hcounted := hrec.counted queue k
      simpa only [hzero k hk, Nat.add_zero] using hcounted

/-- A cycle that reports no metrics was rolled back. -/
theorem Round.server_eq_of_unreported {round : Round} (hshows : server.Shows a)
    (hknows : a.Knows ids) (hwf : ∀ op ∈ round.ops, op.WellFormed)
    (hfresh : (ids ++ jobIdsOf round.ops).Nodup) (hrecords : round.records = true)
    (hnone : (round.run server).metrics = none) : (round.run server).server = server := by
  cases round with
  | restart => exact hshows.rolledBack_eq
  | rpc env rpcs =>
    cases hrun : applyCommands env.now rpcs { tx := beginCycle env server } with
    | mk failure run =>
      cases failure with
      | some failure => simp only [Round.run, runRpcCycle, hrun, hshows.rolledBack_eq]
      | none =>
        obtain ⟨turns, a', -, htrace, hshows', -, hrec⟩ :=
          applyCommands_turns hrun hshows hknows hwf hfresh
        rcases commitCycle_cases env hshows hshows' (events_of_turns htrace) hrec with
          ⟨hcommit, -, -⟩ | hcommit
        · simp only [Round.run, runRpcCycle, hrun, hcommit]
        · simp only [beginCycle, show env.metricsEnabled = true from hrecords] at hrec
          obtain ⟨m, hm⟩ := hrec.exists_metrics
          simp only [Round.run, runRpcCycle, hrun, hcommit] at hnone
          cases hm.symm.trans hnone
  | sweep env params =>
    rcases runSweepCycle_cases env params hshows with
      ⟨e, tx, -, heq⟩ | ⟨r, tx, evs, a', -, -, hrec, ⟨-, heq⟩ | heq⟩
    · rw [Round.run, heq]
    · rw [Round.run, heq]
    · rw [show env.metricsEnabled = true from hrecords] at hrec
      obtain ⟨m, hm⟩ := hrec.exists_metrics
      rw [Round.run, heq] at hnone
      cases hm.symm.trans hnone

/-- The counters account for every job: after every sequence of rounds whose cycles keep metrics,
the live jobs of a queue are what the committed cycles and the answers of requeues say. -/
theorem accounts_of_rounds :
    (∀ rounds : List Round, AdmissibleRounds rounds →
      (∀ round ∈ rounds, round.records = true) → ∀ queue, Accounts rounds queue) ∧
    ∀ (calls : List Call) (op : Op) (result : Except Status OpOutcome) (tx : TxState),
      Run calls tx.server → Admissible (calls ++ [.answered op result]) →
      ∀ queue, op.KeepsAccounts tx queue := by
  refine ⟨fun rounds hadm hrecords queue => ⟨?_, ?_⟩,
    fun calls op result tx hrun hadm queue => hrun.keepsAccounts hadm queue⟩
  · have hempty : Image.empty.Knows [] := fun _ hid => absurd rfl hid
    have hbalance := balance_of_rounds Server.shows_empty hempty hadm.wellFormed hadm.fresh
      hrecords queue
    have hnone : ({} : Server).indexes.liveDepth queue = 0 := rfl
    rw [hnone, Indexes.liveDepth] at hbalance
    simp only [Indexes.depthCounts]
    omega
  · rintro before round after rfl hnone
    have hmem : round ∈ before ++ round :: after := List.mem_append_right _ List.mem_cons_self
    rw [List.append_cons] at hadm
    obtain ⟨hwf, hfresh⟩ := hadm.of_append.last
    obtain ⟨a, hshows, hknows⟩ := exists_shows_after hadm.of_append.of_append
    exact Round.server_eq_of_unreported hshows hknows hwf hfresh (hrecords round hmem) hnone

end Rounds

theorem server_beginCycle (env : CycleEnv) (server : Server) :
    (beginCycle env server).server = server := rfl

/-- Four jobs of a queue: one is acked, one is dead-lettered and requeued, one is lost to an expired
lease and one is purged. In between a cycle fails to commit. -/
def fourFates : List Round :=
  let env (now : Int64) (commitFails : Bool) : CycleEnv :=
    { now, metricsEnabled := true, faults := fun _ => none, commitFails }
  let job (id : String) : PreparedJob :=
    { id
      req := { queue := "emails", jobType := "send" }
      limits := { priority := 5, maxAttempts := 1, dedupWindowMs := 60000 } }
  [.rpc (env 1000 false)
      [.op (.enqueue [job "a", job "b", job "c", job "d"] 0) 0,
        .op (.reserve ["emails"] 500 3 0) 1],
    .rpc (env 1200 false)
      [.op (.ack "a" 1) 2,
        .op (.nack { jobId := "b", attempt := 1, retry := some { strategy := some .deadLetter } } 0
          true 0) 3],
    .rpc (env 1300 true) [.op (.enqueue [job "e"] 0) 4, .op (.ack "c" 1) 5],
    .sweep (env 2000 false) { sweepLimit := 100, deadLetterRetentionMs := 90000 },
    .rpc (env 3000 false) [.op (.purgeQueueChunk "emails" 1) 6,
      .op (.requeueDeadLetters "emails"
        [DeadLetterKey.encode { failedAt := 1200, queue := "emails", jobId := asBytes "b" }] 0) 7]]

theorem admissible_fourFates : AdmissibleRounds fourFates := ⟨by decide, by decide⟩

open WireFormat in
/-- One live job is left of four that were enqueued and one that was requeued, after one ack, two
dead letters and one purged job. -/
theorem accounts_of_fourFates :
    Accounts fourFates "emails" ∧
    ((Server.after {} fourFates).indexes.liveDepth "emails",
      counted (cycleMetrics {} fourFates) "emails" .enqueued,
      ((committedCalls {} fourFates).map (Call.requeuedOf "emails")).sum,
      counted (cycleMetrics {} fourFates) "emails" .acked,
      counted (cycleMetrics {} fourFates) "emails" .deadLettered,
      purgedLive "emails" {} (committedCalls {} fourFates)) = (1, 4, 1, 1, 2, 1) ∧
    (Op.reserve ["emails"] 500 1 4000).KeepsAccounts
      (beginCycle ⟨4000, true, fun _ => none, false⟩ (Server.after {} fourFates)) "emails" := by
  have hrun := Run.of_rounds admissible_fourFates
  rw [← server_beginCycle ⟨4000, true, fun _ => none, false⟩ (Server.after {} fourFates)] at hrun
  refine ⟨accounts_of_rounds.1 fourFates admissible_fourFates (by decide) "emails", ?_,
    accounts_of_rounds.2 (committedCalls {} fourFates) _ (.ok (.reserve [])) _ hrun ⟨?_, ?_⟩ "emails"⟩
  · decide +kernel
  · decide +kernel
  · decide +kernel

end Sepp
