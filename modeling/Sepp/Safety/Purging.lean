import Sepp.Safety.Draining

/-!
# What a purge leaves

A chunk of a purge deletes from nine keyspaces, through the keys of four of them. Every row of the
nine belongs to a job or to a dedup record, and each of these has exactly one row in the four: so
when those are gone, so is all the rest, and no row is left without its queue.

## Main definitions

* `Rows.purgeable` — the rows that a purge counts.
* `applyPurgeQueueChunkChecked` — a chunk whose subtractions panic when they underflow.
* `Server.PurgedChunk` — what an answered chunk has done.

## Main results

* `applyPurgeQueueChunkChecked_eq` — they never do.
* `Run.purge_complete`.
-/

namespace Sepp

/-! ### The budget -/

section Budget

variable [Prost]

/-- `max - purged`, which panics when it underflows. -/
def checkedSub (max purged : ℕ) : TxM ℕ :=
  if purged ≤ max then return max - purged
  else throw ⟨.internal, "attempt to subtract with overflow"⟩

/-- `apply_purge_queue_chunk`, where an underflow of the budget panics. -/
def applyPurgeQueueChunkChecked (queue : String) (max : ℕ) : TxM PurgeOutcome := do
  if 0 < (← getIndexes).leases.byQueue[queue]?.getD 0 then
    throw ⟨.failedPrecondition, "queue has in-flight jobs"⟩
  else
    let purged ← purgeReady (queuePrefix queue) max 0
    let left ← checkedSub max purged
    let chosen := (← getIndexes).scheduled.ownedKeys queue left
    chosen.forM purgeScheduled
    let purged := purged + chosen.length
    let left ← checkedSub max purged
    let chosen := (← getIndexes).deadLetter.ownedKeys queue left
    chosen.forM purgeDeadLetter
    let purged := purged + chosen.length
    let left ← checkedSub max purged
    let chosen := (← getIndexes).dedupTimers.ownedKeys queue left
    chosen.forM purgeDedup
    let purged := purged + chosen.length
    let remaining := holdsRows (← getIndexes) queue
    if !remaining then
      onCycle (Cycle.queuePurged queue)
    return { purged, remaining }

omit [Prost] in
theorem checkedSub_bind {β : Type} {max purged : ℕ} (h : purged ≤ max) (f : ℕ → TxM β) :
    checkedSub max purged >>= f = f (max - purged) := by
  rw [checkedSub, if_pos h, pure_bind]

omit [Prost] in
/-- The loop over the ready jobs keeps to its budget. -/
theorem purgeReady_le {start : Bytes} {left purged n : ℕ} {tx tx' : TxState}
    (h : purgeReady start left purged tx = .ok n tx') : n ≤ purged + left := by
  induction left generalizing purged tx with
  | zero =>
    obtain ⟨rfl, -⟩ := EStateM.Result.ok.inj h
    exact le_rfl
  | succ left ih =>
    rw [purgeReady, bind_run, getIndexes_run] at h
    cases hpop : tx.indexes.ready.popFront start with
    | none =>
      simp only [hpop] at h
      obtain ⟨rfl, -⟩ := EStateM.Result.ok.inj h
      omega
    | some popped =>
      obtain ⟨⟨key, attempt⟩, ready⟩ := popped
      simp only [hpop] at h
      cases hkey : ReadyKey.decode key with
      | none =>
        simp only [hkey] at h
        exact (ih h).trans (by omega)
      | some rk =>
        simp only [hkey] at h
        exact (ih h).trans (by omega)

omit [Prost] in
/-- The budget of a chunk never underflows. -/
theorem applyPurgeQueueChunkChecked_eq (queue : String) (max : ℕ) :
    applyPurgeQueueChunkChecked queue max = applyPurgeQueueChunk queue max := by
  unfold applyPurgeQueueChunkChecked applyPurgeQueueChunk
  refine bind_congr fun idx => ?_
  split_ifs
  · rfl
  funext tx
  rw [bind_run, bind_run]
  cases hready : purgeReady (queuePrefix queue) max 0 tx with
  | error e tx' => rfl
  | ok n tx' =>
    have hn : n ≤ max := by simpa using purgeReady_le hready
    dsimp only
    rw [checkedSub_bind hn]
    -- a phase takes at most what the earlier ones have left
    refine congrFun (bind_congr fun idx₁ => bind_congr fun _ => ?_) tx'
    have h₁ := idx₁.scheduled.length_ownedKeys_le queue (max - n)
    rw [checkedSub_bind (by omega)]
    refine bind_congr fun idx₂ => bind_congr fun _ => ?_
    have h₂ := idx₂.deadLetter.length_ownedKeys_le queue
      (max - (n + (idx₁.scheduled.ownedKeys queue (max - n)).length))
    rw [checkedSub_bind (by omega)]

end Budget

/-! ### The rows that are left -/

section Rows

variable [Prost] {a : Image} {rows : Rows} {idx : Indexes} {queue : String}

/-- The rows of a queue that a purge counts. -/
def Rows.purgeable (rows : Rows) (queue : String) : ℕ :=
  rows.countIn queue .ready + rows.countIn queue .scheduled + rows.countIn queue .deadLetter +
    rows.countIn queue .dedupTimers

theorem Rows.owned_eq_purgeable (rows : Rows) (queue : String) :
    rows.owned queue = rows.purgeable queue + rows.countIn queue .leases := by
  unfold owned purgeable
  omega

/-- The keyspaces whose rows belong to the jobs and the dedup records of a queue. -/
def KeyspaceName.ofQueues (ks : KeyspaceName) : Bool := ks.ofJobs || ks.ofDedup

/-- Each row of these keyspaces is of some queue. -/
theorem Represents.exists_queueOf (h : Represents a rows idx) {ks : KeyspaceName}
    (hks : ks.ofQueues = true) {key value : Bytes} (hget : (rows.get ks)[key]? = some value) :
    ∃ queue, rows.queueOf ks key = some queue := by
  rcases Bool.or_eq_true_iff.mp hks with hjobs | hdedup
  · obtain ⟨id, -, hid⟩ := (h.tracksJobs hjobs).row_of_get hget
    obtain ⟨js, hJ, hrow⟩ := (rowsOf_eq_some_iff _).mp hid
    exact ⟨_, h.queueOf_job hJ hrow⟩
  · obtain ⟨name, -, hname⟩ := (h.tracksDedup hdedup).row_of_get hget
    obtain ⟨d, -, hrow⟩ := (rowsOf_eq_some_iff _).mp hname
    exact ⟨_, queueOf_dedup rows hrow⟩

/-- A row of the queue is of something that the queue owns. -/
theorem Represents.owns_of_queueOf (h : Represents a rows idx) {ks : KeyspaceName}
    (hks : ks.ofQueues = true) {key value : Bytes} (hget : (rows.get ks)[key]? = some value)
    (hqueue : rows.queueOf ks key = some queue) : a.Owns queue := by
  rcases Bool.or_eq_true_iff.mp hks with hjobs | hdedup
  · obtain ⟨id, js, hJ, heq, -⟩ := (h.get_job_iff hjobs).mp ⟨hget, hqueue⟩
    exact .inl ⟨id, js, hJ, heq⟩
  · obtain ⟨name, d, heq, hd, -⟩ := (h.get_dedup_iff hdedup).mp ⟨hget, hqueue⟩
    exact .inr ⟨name, d, hd, heq⟩

/-- The leases of the queue are counted by their rows. -/
theorem Represents.countIn_leases_pos_iff (h : Represents a rows idx) (queue : String) :
    0 < rows.countIn queue .leases ↔ a.HasLease queue := by
  rw [h.countIn_eq queue (.inr (.inr (.inl rfl))), ← h.leases_eq, h.hasLease_iff]

end Rows

/-! ### A chunk -/

section Chunk

variable [Prost] {calls : List Call} {server server' : Server} {queue : String} {limit : UInt64}
  {r : PurgeOutcome}

/-- What a chunk that is answered has done to the rows. -/
structure Server.PurgedChunk (server : Server) (queue : String) (limit : UInt64)
    (r : PurgeOutcome) (server' : Server) : Prop where
  purged : r.purged = min limit.toNat (server.rows.purgeable queue)
  left : server'.rows.purgeable queue + r.purged = server.rows.purgeable queue
  remaining : r.remaining = true ↔ 0 < server'.rows.purgeable queue
  complete : r.remaining = false → ∀ ks : KeyspaceName, ks.ofQueues = true →
    ∀ key value, (server'.rows.get ks)[key]? = some value →
      ∃ other, other ≠ queue ∧ server'.rows.queueOf ks key = some other
  others : ∀ other, other ≠ queue → server.rows.SameQueue server'.rows other

omit [Prost] in
theorem PurgesQueue.queue_eq {e : Event} (h : PurgesQueue queue e) : e.queue? = some queue := by
  rcases h with ⟨id, rfl⟩ | ⟨id, key, record, rfl⟩ | ⟨name, rfl, rfl⟩ <;> rfl

theorem Server.Shows.purgedChunk {a : Image} (h : server.Shows a) (hq : FitsPrefix queue)
    (hlease : ¬ a.HasLease queue) (hstep : CallStep server
      (.answered (.purgeQueueChunk queue limit) (.ok (.purgeQueueChunk r))) server') :
    server.PurgedChunk queue limit r server' := by
  obtain ⟨evs, a', htrace, hshows', hevs, hpurged, hle, hdone, hremaining⟩ := h.purged hq hstep
  have hcount := owned_of_purges htrace h.finite hevs
  have hlease' : ¬ a'.HasLease queue := by
    rintro ⟨id, js, attempt, expires, hJ, hp, hqueue⟩
    exact hlease ⟨id, js, attempt, expires, (within_of_purges htrace hevs).jobs id js hJ, hp,
      hqueue⟩
  have howned : server.rows.purgeable queue = a.owned queue := by
    have hnone := (h.countIn_leases_pos_iff queue).not.mpr hlease
    have heq := server.rows.owned_eq_purgeable queue
    rw [h.owned_eq] at heq
    omega
  have howned' : server'.rows.purgeable queue = a'.owned queue := by
    have hnone := (hshows'.countIn_leases_pos_iff queue).not.mpr hlease'
    have heq := server'.rows.owned_eq_purgeable queue
    rw [hshows'.owned_eq] at heq
    omega
  have hzero : a'.owned queue = 0 ↔ ¬ a'.Owns queue :=
    Image.owned_eq_zero_iff hshows'.finite
  refine ⟨?_, ?_, ?_, fun hfalse ks hks key value hget => ?_, fun other hne => ?_⟩
  · rw [← hzero] at hdone
    omega
  · omega
  · rw [hremaining, howned', ← not_iff_not, ← hzero]
    omega
  · obtain ⟨other, hother⟩ := hshows'.exists_queueOf hks hget
    refine ⟨other, fun heq => ?_, hother⟩
    have howns := hremaining.mpr (hshows'.owns_of_queueOf hks hget (heq ▸ hother))
    cases hfalse.symm.trans howns
  · exact h.sameQueue hshows'
      (sameQueue_of_trace htrace (fun e he => .inl (hevs e he).queue_eq) hne)

/-- A chunk is refused exactly while the queue has leases. Otherwise it removes what it may of the
rows of its queue, and nothing of the others; the last one leaves no row of the queue, and none
without a queue. -/
theorem Run.purge_complete (h : Run calls server) (hq : FitsPrefix queue) (limit : UInt64) :
    applyPurgeQueueChunkChecked queue limit.toNat = applyPurgeQueueChunk queue limit.toNat ∧
    (0 < server.rows.countIn queue .leases → ∃ e, e.code = .failedPrecondition ∧
      server.perform (.purgeQueueChunk queue limit) =
        (.answered (.purgeQueueChunk queue limit) (.error e), server)) ∧
    (server.rows.countIn queue .leases = 0 → ∃ r server',
      server.perform (.purgeQueueChunk queue limit) =
        (.answered (.purgeQueueChunk queue limit) (.ok (.purgeQueueChunk r)), server')) ∧
    ∀ (result : Except Status OpOutcome) (server' : Server),
      CallStep server (.answered (.purgeQueueChunk queue limit) result) server' →
      match result with
      | .error e => server' = server ∧
          (e.code = .failedPrecondition ∧ 0 < server.rows.countIn queue .leases ∨
            e.code = .internal)
      | .ok r => server.rows.countIn queue .leases = 0 ∧
          ∃ r', r = .purgeQueueChunk r' ∧ server.PurgedChunk queue limit r' server' := by
  obtain ⟨a, hshows⟩ := h.exists_shows
  have hpos := hshows.countIn_leases_pos_iff queue
  refine ⟨applyPurgeQueueChunkChecked_eq queue _, fun hlease => ?_, fun hnone => ?_,
    fun result server' hstep => ?_⟩
  · have hrejects : Rejects (applyOp (.purgeQueueChunk queue limit)) a _ :=
      (applyPurgeQueueChunk_rejects (hpos.mp hlease) limit.toNat).bind
    obtain ⟨e, hperform, hcode⟩ := hshows.perform_of_rejects hrejects fun e he => by simp [he]
    exact ⟨e, hcode, hperform⟩
  · have hlease : ¬ a.HasLease queue := hpos.not.mp (by omega)
    have hreal : Realizes (applyOp (.purgeQueueChunk queue limit)) a _ :=
      Realizes.wrap OpOutcome.purgeQueueChunk
        (applyPurgeQueueChunk_realizes hq hlease limit.toNat)
    obtain ⟨_, server', -, -, hperform, -, -, r, rfl, -⟩ := hshows.perform_of_realizes hreal
    exact ⟨r, server', hperform⟩
  · by_cases hlease : a.HasLease queue
    · obtain ⟨rfl, e, rfl, hcode⟩ := hshows.callStep_of_rejects
        (applyPurgeQueueChunk_rejects hlease limit.toNat).bind hstep
      exact ⟨rfl, hcode.imp_left fun hcode => ⟨hcode, hpos.mpr hlease⟩⟩
    · have hreal : Realizes (applyOp (.purgeQueueChunk queue limit)) a _ :=
        Realizes.wrap OpOutcome.purgeQueueChunk
          (applyPurgeQueueChunk_realizes hq hlease limit.toNat)
      cases result with
      | error e =>
        obtain ⟨rfl, hcode⟩ := hshows.callStep_error_of_realizes hreal hstep
        exact ⟨rfl, .inr hcode⟩
      | ok r =>
        obtain ⟨-, -, -, -, r', rfl, -⟩ := hshows.callStep_of_realizes hreal hstep
        exact ⟨by have := hpos.not.mpr hlease; omega, r', rfl,
          hshows.purgedChunk hq hlease hstep⟩

end Chunk

/-- Two queues with two jobs each; in one of them a job has a payload and a dedup record, and the
other is scheduled. -/
def twoQueues : List Op :=
  let job (id queue : String) (key : Option String) (scheduledAt : Option Timestamp) :
      PreparedJob :=
    { id
      req :=
        { queue, scheduledAt
          jobType := "send"
          payload := some ⟨[1], ""⟩
          idempotencyKey := key }
      limits := { priority := 5, maxAttempts := 3, dedupWindowMs := 60000 } }
  [.enqueue [job "a" "emails" (some "k") none, job "b" "emails" none (some ⟨9, 0⟩),
    job "c" "sms" none none, job "d" "sms" none none] 1000,
   .reserve ["sms"] 5000 1 2000]

open WireFormat Server in
/-- A chunk of two removes the jobs and leaves the dedup record; the queue that has a lease is not
purged at all. -/
theorem purge_complete_twoQueues :
    (performAll twoQueues {}).2.rows.purgeable "emails" = 3 ∧
    (∃ r server', (performAll twoQueues {}).2.perform (.purgeQueueChunk "emails" 2) =
        (.answered (.purgeQueueChunk "emails" 2) (.ok (.purgeQueueChunk r)), server') ∧
      r = ⟨2, true⟩ ∧ (performAll twoQueues {}).2.PurgedChunk "emails" 2 r server') ∧
    ∃ e, e.code = .failedPrecondition ∧ (performAll twoQueues {}).2.perform
      (.purgeQueueChunk "sms" 2) = (.answered (.purgeQueueChunk "sms" 2) (.error e),
        (performAll twoQueues {}).2) := by
  have hrun : Run (performAll twoQueues {}).1 (performAll twoQueues {}).2 :=
    Run.of_performAll (by decide) (by decide)
  obtain ⟨-, -, hanswered, hstep⟩ := hrun.purge_complete
    (show FitsPrefix "emails" by decide) 2
  obtain ⟨r, server', hperform⟩ := hanswered (by decide +kernel)
  have hanswer : ((performAll twoQueues {}).2.perform (.purgeQueueChunk "emails" 2)).1 =
      .answered (.purgeQueueChunk "emails" 2) (.ok (.purgeQueueChunk ⟨2, true⟩)) := by
    decide +kernel
  refine ⟨by decide +kernel, ⟨r, server', hperform, ?_, ?_⟩, ?_⟩
  · rw [hperform] at hanswer
    exact OpOutcome.purgeQueueChunk.inj (Except.ok.inj (Call.answered.inj hanswer).2)
  · have hcall := callStep_perform (performAll twoQueues {}).2 (.purgeQueueChunk "emails" 2)
    rw [hperform] at hcall
    obtain ⟨-, r', hr, hchunk⟩ := hstep _ _ hcall
    exact OpOutcome.purgeQueueChunk.inj hr ▸ hchunk
  · exact (hrun.purge_complete (show FitsPrefix "sms" by decide) 2).2.1 (by decide +kernel)

end Sepp
