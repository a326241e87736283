import Sepp.Safety.Attempts

/-!
# Fencing

The attempt fences the lease: a worker that lost its lease holds an attempt that the job is never
leased on again. This rests on an attempt being delivered once. Within one life of a job that is
so, but a dead letter that is put back in line starts over with the same id on attempt one, so it
may only be put back if it has never been delivered: if an operator gave it up on its first
attempt.

## Main definitions

* `Call.SparesDelivered` — a requeue of jobs that were never delivered, or any other call.
* `SparingStep` — the calls of a run with such requeues only.

## Main results

* `fencing_of_sparing_run` — no attempt is delivered twice, and an ended lease stays refused.
* `fencing_broken_by_requeue` — a run with another requeue.
-/

namespace Sepp

/-! ### One job -/

section Jobs

variable [Prost] {id : String} {n : UInt32} {x x' : Option JobState} {evs : List Event}

omit [Prost] in
/-- The job is leased on the attempt. -/
def LeasedOn (n : UInt32) (x : Option JobState) : Prop :=
  ∃ js expires, x = some js ∧ js.place = .leased n expires

/-- A job that is never inserted is never delivered. -/
theorem not_delivered_of_not_inserted (h : Trace (JobStep id) none evs x)
    (hnot : ∀ job now, .insert job now ∈ evs → job.id ≠ id) :
    evs.flatMap (Event.attemptsTo id) = [] := by
  generalize hnone : none = y at h
  induction h with
  | nil => rfl
  | @cons y z _ e evs hstep _ ih =>
    obtain rfl := hnone
    have hrest := ih fun job now hmem => hnot job now (List.mem_cons_of_mem _ hmem)
    cases hstep with
    | other he => rw [List.flatMap_cons, Event.attemptsTo_of_other he, hrest rfl, List.append_nil]
    | insert hq hid => exact absurd hid (hnot _ _ List.mem_cons_self)

/-- A job comes to be leased on an attempt by a delivery on it. -/
theorem delivered_of_leasedOn (h : Trace (JobStep id) x evs x') (hx : ¬ LeasedOn n x)
    (hx' : LeasedOn n x') : n ∈ evs.flatMap (Event.attemptsTo id) := by
  by_contra hnot
  refine absurd hx' (h.preserves (P := fun x => ¬ LeasedOn n x) (fun x e x' he hstep hx => ?_) hx)
  rintro ⟨js, expires, rfl, hplace⟩
  cases hstep with
  | other => exact hx ⟨js, expires, rfl, hplace⟩
  | insert =>
    rcases PreparedJob.firstPlace_waits _ _ with hp | ⟨deadline, hp⟩ <;> cases hp.symm.trans hplace
  | lease =>
    cases hplace
    exact hnot (List.mem_flatMap.mpr ⟨_, he, by simp [Event.attemptsTo, JobState.deliveredJob,
      JobState.fullJob, JobState.storedJob]⟩)
  | @retry _ _ _ _ _ delayed => cases delayed <;> cases hplace
  | extend hp =>
    cases hplace
    exact hx ⟨_, _, rfl, hp⟩
  | promote | redeliver | keep | requeue => cases hplace

/-- A job that a requeue puts back in line was dead before, under one of the keys named. -/
theorem dead_of_requeue {queue : String} {keys : List Bytes} {now : Int64}
    (h : Trace (JobStep id) x evs x')
    (hevs : ∀ e ∈ evs, ∃ id', ∃ key ∈ keys, e = .requeue id' queue key now)
    (hbirth : ∃ e ∈ evs, e.birth? = some id) :
    ∃ js n failedAt cause reason, x = some js ∧ js.place = .dead n failedAt cause reason ∧
      js.content.queue.1 = queue ∧ js.deadKey id failedAt ∈ keys := by
  induction h with
  | nil =>
    obtain ⟨e, he, -⟩ := hbirth
    cases he
  | @cons y z _ e evs hstep _ ih =>
    obtain ⟨id', key, hkey, rfl⟩ := hevs e List.mem_cons_self
    cases hstep with
    | other he =>
      refine ih (fun e he' => hevs e (List.mem_cons_of_mem _ he')) ?_
      obtain ⟨e', he', hborn⟩ := hbirth
      rcases List.mem_cons.mp he' with rfl | he'
      · exact absurd hborn he
      · exact ⟨e', he', hborn⟩
    | requeue hplace => exact ⟨_, _, _, _, _, rfl, hplace, rfl, hkey⟩

end Jobs

/-! ### Runs -/

section Runs

variable [Prost]

/-- A requeue puts no job back in line that was delivered: the dead letters under its keys were
given up by an operator on their first attempt. One that fails puts nothing back. -/
def Call.SparesDelivered (rows : Rows) : Call → Prop
  | answered (.requeueDeadLetters queue keys _) (.ok _) => ∀ key ∈ keys,
    ∀ bytes (record : DeadLetterRecord), DeadLetterKey.queueOf key = some queue →
      rows.deadLetter[key]? = some bytes → Message.decode bytes = some record →
      record.cause = .admin ∧ record.finalAttempt = 1
  | _ => True

/-- A call that puts no delivered job back in line. -/
structure SparingStep (server : Server) (call : Call) (server' : Server) : Prop where
  step : CallStep server call server'
  spares : call.SparesDelivered server.rows

/-- The operation is an ack, nack or extend of the lease. -/
def Op.UsesLease (id : String) (attempt : UInt32) : Op → Prop
  | .ack id' attempt' => id' = id ∧ attempt' = attempt
  | .nack req _ _ _ => req.jobId = id ∧ req.attempt = attempt
  | .extend req _ _ => req.jobId = id ∧ req.attempt = attempt
  | _ => False

theorem sparing_callStep {calls : List Call} {server server' : Server}
    (h : Trace SparingStep server calls server') : Trace CallStep server calls server' := by
  induction h with
  | nil => exact Trace.nil _
  | cons hstep _ ih => exact Trace.cons hstep.step ih

/-- In a run a job has one limit, and the discipline holds for it. -/
theorem exists_disciplined {turns : List Turn} {server : Server} {a : Image}
    (h : Trace TurnStep ({}, Image.empty) turns (server, a))
    (hadmissible : Admissible (turns.map Turn.call)) (id : String) :
    ∃ m, Disciplined id m (turns.flatMap Turn.events) (a.jobs id) := by
  by_cases hjob : ∃ job ∈ (turns.map Turn.call).flatMap Call.jobs, job.id = id
  · obtain ⟨job, hjob, rfl⟩ := hjob
    refine ⟨job.limits.maxAttempts, disciplined_of_trace (events_of_turns h) ?_⟩
    intro job' now hmem hid
    rw [hadmissible.eq_of_id_eq hjob (mem_jobs_of_insert h hmem) hid]
  · refine ⟨0, disciplined_of_trace (events_of_turns h) fun job now hmem hid => ?_⟩
    exact absurd ⟨job, mem_jobs_of_insert h hmem, hid⟩ hjob

omit [Prost] in
theorem attemptsOf_concat (id : String) (calls : List Call) (call : Call) :
    attemptsOf id (calls ++ [call]) = attemptsOf id calls ++ attemptsOf id [call] := by
  simp [attemptsOf]

/-- A job that a sparing requeue puts back in line has not been delivered since its last birth. -/
theorem attemptsSince_of_requeue {server : Server} {a a' : Image} {evs past : List Event}
    {call : Call} {id : String} {m : UInt32} (hshows : server.Shows a)
    (hspares : call.SparesDelivered server.rows) (htrace : Trace Step a evs a')
    (hexp : call.Explained evs) (hrequeued : id ∈ call.requeued)
    (hdisciplined : Disciplined id m past (a.jobs id)) : attemptsSince id past = [] := by
  obtain ⟨queue, key, now, hmem⟩ := hexp.mem_requeued_iff.mp hrequeued
  obtain ⟨op, r, rfl, hmakes⟩ := hexp.exists_op hmem
  obtain ⟨keys, rfl, -⟩ := hmakes.of_requeue
  obtain ⟨js, n, failedAt, cause, reason, hjs, hplace, hqueue, hkey⟩ := dead_of_requeue
    (jobs_of_trace htrace id) (fun e he => Explains.makes hexp he) ⟨_, hmem, rfl⟩
  have hrow := hshows.jobs.get_deadLetter hjs hplace
  have howner : DeadLetterKey.queueOf (js.deadKey id failedAt) = some queue :=
    (DeadLetterKey.queueOf_encode js.content.queue.2).trans (congrArg some hqueue)
  obtain ⟨hcause, hfinal⟩ := hspares _ hkey _ _ howner hrow (Message.decode_encodeToVec _)
  obtain rfl : cause = .admin := hcause
  obtain rfl : n = 1 := hfinal
  have hstanding := (hdisciplined.standing js hjs).2.2.2
  rwa [hplace] at hstanding

/-- In a run that spares delivered jobs, all deliveries of a job are those since its last birth. -/
theorem exists_turns_of_sparing {calls : List Call} {server : Server}
    (h : Trace SparingStep {} calls server) (hadmissible : Admissible calls) :
    ∃ turns a, turns.map Turn.call = calls ∧ Trace TurnStep ({}, Image.empty) turns (server, a) ∧
      server.Shows a ∧ a.Knows (enqueuedIds calls) ∧
      ∀ id, attemptsOf id calls = attemptsSince id (turns.flatMap Turn.events) := by
  refine Trace.history (P := fun calls server => Admissible calls → ∃ turns a,
    turns.map Turn.call = calls ∧ Trace TurnStep ({}, Image.empty) turns (server, a) ∧
      server.Shows a ∧ a.Knows (enqueuedIds calls) ∧
      ∀ id, attemptsOf id calls = attemptsSince id (turns.flatMap Turn.events))
    (fun _ => ?_) (fun calls call server server' _ ih hstep hadm => ?_) h hadmissible
  · exact ⟨[], Image.empty, rfl, Trace.nil _, Server.shows_empty, fun _ hid => absurd rfl hid,
      fun id => rfl⟩
  obtain ⟨turns, a, rfl, hturns, hshows, hknows, hdeliveries⟩ := ih hadm.of_append
  obtain ⟨evs, a', hturn, -⟩ := hstep.step.exists_turn hshows (hadm.wellFormed call (by simp))
    (hadm.fresh_of_knows hknows)
  have hknows' := hturn.knows hknows
  refine ⟨turns ++ [⟨call, evs⟩], a', by simp, hturns.append (Trace.single hturn), hturn.shows, ?_,
    fun id => ?_⟩
  · simpa [enqueuedIds] using hknows'
  have hexp : call.Explained evs := hturn.explained
  have hlast : attemptsOf id [call] = evs.flatMap (Event.attemptsTo id) := by
    rw [flatMap_attemptsTo, hexp.filterMap_delivery, attemptsOf, List.flatMap_singleton]
  rw [attemptsOf_concat, List.flatMap_append, List.flatMap_singleton]
  by_cases hbirth : call.Births id
  · -- nothing was delivered before the birth
    have hnone : attemptsOf id (turns.map Turn.call) = [] := by
      rcases hbirth with hinserts | hrequeued
      · rw [← flatMap_attemptsTo_turns (explained_of_turns hturns)]
        refine not_delivered_of_not_inserted (jobs_of_trace (events_of_turns hturns) id) ?_
        rintro job now hmem rfl
        obtain ⟨job', now', hmem', hid⟩ := hexp.inserts_iff.mp hinserts
        obtain ⟨op, r, rfl, hmakes⟩ := hexp.exists_op hmem'
        have hfresh := hadm.fresh
        rw [enqueuedIds, List.flatMap_append, List.map_append] at hfresh
        refine (List.nodup_append.mp hfresh).2.2 _
          (List.mem_map_of_mem (mem_jobs_of_insert hturns hmem)) _ ?_ hid.symm
        rw [List.flatMap_singleton]
        exact List.mem_map_of_mem hmakes.mem_jobs
      · obtain ⟨m, hdisciplined⟩ := exists_disciplined hturns hadm.of_append id
        rw [hdeliveries]
        exact attemptsSince_of_requeue hshows hstep.spares hturn.events hexp hrequeued hdisciplined
    rw [hnone, hlast, attemptsSince_eq_nil (hexp.births_iff.mp hbirth)]
    all_goals
      have hsilent : evs.flatMap (Event.attemptsTo id) = [] := by
        rw [flatMap_attemptsTo, hexp.filterMap_delivery, hbirth.delivered_eq]
        rfl
    · rw [hsilent]
      rfl
    · exact List.flatMap_eq_nil_iff.mp hsilent
  · rw [attemptsSince_append fun e he hborn => hbirth (hexp.births_iff.mpr ⟨e, he, hborn⟩),
      hdeliveries, hlast]

omit [Prost] in
theorem upTo_nodup {k : ℕ} (hk : k < 2 ^ 32) : (upTo k).Nodup := by
  refine List.nodup_range.map_on fun i hi j hj hij => ?_
  rw [List.mem_range] at hi hj
  have hnat := congrArg UInt32.toNat hij
  rw [UInt32.toNat_ofNat', UInt32.toNat_ofNat', Nat.mod_eq_of_lt (by omega),
    Nat.mod_eq_of_lt (by omega)] at hnat
  exact Nat.succ.inj hnat

/-- A job is delivered on an attempt once. -/
theorem nodup_attemptsOf {calls : List Call} {server : Server}
    (h : Trace SparingStep {} calls server) (hadmissible : Admissible calls) (id : String) :
    (attemptsOf id calls).Nodup := by
  obtain ⟨turns, a, rfl, hturns, -, -, hdeliveries⟩ := exists_turns_of_sparing h hadmissible
  obtain ⟨m, hdisciplined⟩ := exists_disciplined hturns hadmissible id
  obtain ⟨k, hk, hcount⟩ := hdisciplined.counted
  rw [hdeliveries, hcount]
  refine upTo_nodup ?_
  have hm := m.toNat_lt
  omega

omit [Prost] in
/-- Deliveries are distinct when those of each job are. -/
theorem nodup_granted {jobs : List Job}
    (h : ∀ id, ((jobs.filter fun job => job.id == id).map Job.attempt).Nodup) :
    (jobs.map fun job => (job.id, job.attempt)).Nodup := by
  induction jobs with
  | nil => exact List.nodup_nil
  | cons job jobs ih =>
    rw [List.map_cons, List.nodup_cons]
    constructor
    · intro hmem
      obtain ⟨job', hjob', hpair⟩ := List.mem_map.mp hmem
      obtain ⟨hid, hattempt⟩ := Prod.mk.inj hpair
      have hown := h job.id
      rw [List.filter_cons_of_pos (by simp), List.map_cons, List.nodup_cons] at hown
      refine hown.1 (hattempt ▸ List.mem_map_of_mem (List.mem_filter.mpr ⟨hjob', ?_⟩))
      simp [hid]
    · refine ih fun id => ?_
      have hid := h id
      rw [List.filter_cons] at hid
      split_ifs at hid
      · exact hid.of_cons
      · exact hid

/-- An operation on a lease that the job is not on is refused, and changes nothing. -/
theorem Server.Shows.refuses {server : Server} {a : Image} (h : server.Shows a) {id : String}
    {attempt : UInt32} (hnot : ¬ server.rows.Leased id attempt) {op : Op}
    (hop : op.UsesLease id attempt) :
    Rejects (applyOp op) a fun e => e.code = .notFound ∨ e.code = .failedPrecondition := by
  have hnot' : ¬ a.Holds id attempt := fun hholds => hnot (h.leased_iff.mpr hholds)
  cases op with
  | ack =>
    obtain ⟨rfl, rfl⟩ := hop
    exact applyOp_ack_rejects hnot'
  | nack req retryDelayMs kept now =>
    obtain ⟨rfl, rfl⟩ := hop
    exact applyOp_nack_rejects hnot' retryDelayMs kept now
  | extend req leaseMs now =>
    obtain ⟨rfl, rfl⟩ := hop
    exact applyOp_extend_rejects hnot' leaseMs now
  | _ => exact hop.elim

/-- In a run that puts no delivered job back in line, no two leases carry the same job and attempt.
A lease that was granted and has ended stays ended: an ack, nack or extend of it is refused and
changes nothing. -/
theorem fencing_of_sparing_run {calls calls' : List Call} {server server' : Server}
    (h : Trace SparingStep {} calls server) (h' : Trace SparingStep server calls' server')
    (hadmissible : Admissible (calls ++ calls')) :
    (((calls ++ calls').flatMap Call.delivered).map fun job => (job.id, job.attempt)).Nodup ∧
      ∀ job ∈ calls.flatMap Call.delivered, ¬ server.rows.Leased job.id job.attempt →
        ∀ op : Op, op.UsesLease job.id job.attempt →
          (∃ e, server'.perform op = (.answered op (.error e), server') ∧
            (e.code = .notFound ∨ e.code = .failedPrecondition)) ∧
          ∀ result server'', CallStep server' (.answered op result) server'' →
            server'' = server' ∧ ∃ e, result = .error e ∧
              ((e.code = .notFound ∨ e.code = .failedPrecondition) ∨ e.code = .internal) := by
  have hnodup := nodup_attemptsOf (h.append h') hadmissible
  refine ⟨nodup_granted hnodup, fun job hjob hended op hop => ?_⟩
  have hadm : Admissible calls := ⟨fun call hmem => hadmissible.wellFormed call (by simp [hmem]), by
    have hfresh := hadmissible.fresh
    rw [enqueuedIds, List.flatMap_append, List.map_append] at hfresh
    exact (List.nodup_append.mp hfresh).1⟩
  obtain ⟨turns, a, rfl, hturns, hshows, hknows, -⟩ := exists_turns_of_sparing h hadm
  obtain ⟨turns', a', rfl, hturns', hshows', -⟩ := exists_turns (sparing_callStep h') hshows hknows
    (fun call hmem => hadmissible.wellFormed call (by simp [hmem]))
    (by simpa [enqueuedIds] using hadmissible.fresh)
  have hnot : ¬ server'.rows.Leased job.id job.attempt := by
    intro hleased
    obtain ⟨js, expires, hjs, hplace⟩ := hshows'.leased_iff.mp hleased
    -- the lease would have to be granted once more
    have hagain := delivered_of_leasedOn (jobs_of_trace (events_of_turns hturns') job.id)
      (fun hon => hended (hshows.leased_iff.mpr hon)) ⟨js, expires, hjs, hplace⟩
    rw [flatMap_attemptsTo_turns (explained_of_turns hturns')] at hagain
    have hfirst : job.attempt ∈ attemptsOf job.id (turns.map Turn.call) :=
      List.mem_map_of_mem (List.mem_filter.mpr ⟨hjob, by simp⟩)
    have htwice := hnodup job.id
    rw [attemptsOf, List.flatMap_append, List.filter_append, List.map_append] at htwice
    exact (List.nodup_append.mp htwice).2.2 _ hfirst _ hagain rfl
  have hrejects := hshows'.refuses hnot hop
  refine ⟨hshows'.perform_of_rejects hrejects fun e he => ?_, fun result server'' hstep =>
    hshows'.callStep_of_rejects hrejects hstep⟩
  rcases he with he | he <;> simp [he]

/-- Operations without a requeue spare delivered jobs. -/
theorem trace_sparing_performAll : ∀ (ops : List Op) (server : Server),
    (∀ op ∈ ops, ∀ queue keys now, op ≠ .requeueDeadLetters queue keys now) →
      Trace SparingStep server (Server.performAll ops server).1 (Server.performAll ops server).2
  | [], server, _ => Trace.nil server
  | op :: ops, server, h => by
    have hspares : (server.perform op).1.SparesDelivered server.rows := by
      obtain ⟨result, hcall⟩ := server.exists_result op
      rw [hcall]
      cases op with
      | requeueDeadLetters queue keys now =>
        exact absurd rfl (h _ List.mem_cons_self queue keys now)
      | _ => trivial
    exact .cons ⟨server.callStep_perform op, hspares⟩
      (trace_sparing_performAll ops _ fun op' hop' => h op' (List.mem_cons_of_mem _ hop'))

/-- So do operations with one that does. -/
theorem trace_sparing_append {ops ops' : List Op} {op : Op} {server : Server} {call : Call}
    (h : Trace SparingStep server (Server.performAll ops server).1 (Server.performAll ops server).2)
    (hcall : ((Server.performAll ops server).2.perform op).1 = call)
    (hspares : call.SparesDelivered (Server.performAll ops server).2.rows)
    (h' : ∀ server, Trace SparingStep server (Server.performAll ops' server).1
      (Server.performAll ops' server).2) :
    Trace SparingStep server (Server.performAll (ops ++ op :: ops') server).1
      (Server.performAll (ops ++ op :: ops') server).2 := by
  subst hcall
  rw [Server.performAll_append]
  exact h.append (.cons ⟨Server.callStep_perform _ op, hspares⟩ (h' _))

end Runs

/-- An operator gives up a job that waits for its first attempt. -/
def givenUpWaiting : List Op :=
  [.enqueue [twoTries] 1000, .deadLetterJobs "emails" .ready
    [ReadyKey.encode { queue := "emails", priority := 5, enqueuedAt := 1000, jobId := "a" }] none
    true 2000]

/-- The job is put back in line. -/
def requeueGivenUp : Op :=
  .requeueDeadLetters "emails"
    [DeadLetterKey.encode { failedAt := 2000, queue := "emails", jobId := asBytes "a" }] 3000

/-- It is delivered, and put back in line by the sweep when its lease has expired. -/
def expiredLease : List Op := [.reserve ["emails"] 30000 1 4000, .sweep 40000 10 none true]

/-- The whole run. -/
def requeuedThenExpired : List Op := givenUpWaiting ++ requeueGivenUp :: expiredLease

open WireFormat Server in
/-- The requeue spares delivered jobs. -/
theorem trace_sparing_requeuedThenExpired : Trace SparingStep {}
    (performAll requeuedThenExpired {}).1 (performAll requeuedThenExpired {}).2 := by
  have hcall : ((performAll givenUpWaiting {}).2.perform requeueGivenUp).1 =
      .answered requeueGivenUp (.ok (.requeueDeadLetters ⟨1, 0, ["a"]⟩)) := by decide +kernel
  have hrecord : ((performAll givenUpWaiting {}).2.rows.deadLetter[DeadLetterKey.encode
      { failedAt := 2000, queue := "emails", jobId := asBytes "a" }]?.bind Message.decode).map
        (fun record : DeadLetterRecord => (record.cause, record.finalAttempt)) =
          some (.admin, 1) := by
    decide +kernel
  refine trace_sparing_append (trace_sparing_performAll givenUpWaiting {} (by simp [givenUpWaiting]))
    hcall ?_ fun server => trace_sparing_performAll expiredLease server (by simp [expiredLease])
  intro key hkey bytes record _ hrow hdecode
  obtain rfl := List.mem_singleton.mp hkey
  rw [hrow, Option.bind_some, hdecode, Option.map_some] at hrecord
  exact Prod.mk.inj (Option.some.inj hrecord)

open WireFormat Server in
/-- The job is delivered once more, and the first worker is refused. -/
theorem fencing_of_requeuedThenExpired :
    ∃ e, (performAll [.reserve ["emails"] 30000 1 50000]
        (performAll requeuedThenExpired {}).2).2.perform (.ack "a" 1) =
      (.answered (.ack "a" 1) (.error e),
        (performAll [.reserve ["emails"] 30000 1 50000] (performAll requeuedThenExpired {}).2).2) ∧
      (e.code = .notFound ∨ e.code = .failedPrecondition) := by
  have hgranted : ∃ job ∈ (performAll requeuedThenExpired {}).1.flatMap Call.delivered,
      job.id = "a" ∧ job.attempt = 1 := by decide +kernel
  obtain ⟨job, hjob, hid, hattempt⟩ := hgranted
  have hnone : (performAll requeuedThenExpired {}).2.rows.inflight[asBytes "a"]? = none := by
    decide +kernel
  have h := fencing_of_sparing_run trace_sparing_requeuedThenExpired
    (trace_sparing_performAll [.reserve ["emails"] 30000 1 50000] _ (by simp))
    ⟨by decide +kernel, by decide +kernel⟩
  refine (h.2 job hjob ?_ (.ack "a" 1) ⟨hid.symm, hattempt.symm⟩).1
  rw [hid]
  rintro ⟨expires, bytes, record, hrow, -⟩
  cases hnone.symm.trans hrow

/-- A job that is delivered and rejected for good, put back in line by an operator, and delivered to
another worker. -/
def requeuedLease : List Op :=
  [.enqueue [twoTries] 1000, .reserve ["emails"] 30000 1 2000,
    .nack { jobId := "a", attempt := 1, retry := some { strategy := some .deadLetter } } 0 true 3000,
    .requeueDeadLetters "emails"
      [DeadLetterKey.encode { failedAt := 3000, queue := "emails", jobId := asBytes "a" }] 4000,
    .reserve ["emails"] 30000 1 5000]

open WireFormat Server in
/-- The two leases carry the same job and attempt, and the first worker, whose lease has ended, acks
the lease of the second. -/
theorem fencing_broken_by_requeue :
    Run (performAll requeuedLease {}).1 (performAll requeuedLease {}).2 ∧
    ((performAll requeuedLease {}).1.flatMap Call.delivered).map
      (fun job => (job.id, job.attempt)) = [("a", 1), ("a", 1)] ∧
    (performAll (requeuedLease.take 3) {}).2.rows.inflight[asBytes "a"]? = none ∧
    ((performAll requeuedLease {}).2.perform (.ack "a" 1)).1 =
      .answered (.ack "a" 1) (.ok (.ack { queue := "emails", traceContext := none })) := by
  refine ⟨Run.of_performAll (by decide) (by decide), ?_, ?_, ?_⟩
  · decide +kernel
  · decide +kernel
  · decide +kernel

end Sepp
