import Sepp.Api.Leases
import Sepp.Run.Contents
import Sepp.Safety.Reserving
import Sepp.Wire.RoundTrip

/-!
# Leases and delays are those of the queue

The length of a lease and the delay of a retry are resolved before the operation is proposed, from
a registry and a snapshot of the store that may both be old by the time the operation is applied.
A job never changes its queue, so the lease that is granted keeps the limit of the queue anyway.
The summaries of the registry spare the lookup, and change nothing else.

## Main definitions

* `LeaseWithin` — the length of a lease is at least a millisecond and in the limit.

## Main results

* `Run.lease_bounds`.
* `shortcuts_agree`.
-/

namespace Sepp

/-- The lease ends at least a millisecond after `now`, unless the clock ends there, and at most
`maxLease` milliseconds after it. -/
structure LeaseWithin (now expires : Int64) (maxLease : UInt64) : Prop where
  one_le : now.toInt < 2 ^ 63 - 1 → 1 ≤ expires.toInt - now.toInt
  le_max : expires.toInt - now.toInt ≤ maxLease.toNat

theorem leaseWithin (now : Int64) {lease maxLease : UInt64} (hone : 1 ≤ lease)
    (hmax : lease ≤ maxLease) : LeaseWithin now (saturatingAdd now (i64OfU64 lease)) maxLease := by
  have hone := UInt64.le_iff_toNat_le.mp hone
  have hmax := UInt64.le_iff_toNat_le.mp hmax
  have hlower := now.le_toInt
  rw [show UInt64.toNat 1 = 1 from rfl] at hone
  constructor <;> rw [toInt_saturatingAdd, i64OfU64, toInt_saturate] <;> omega

section Leasing

variable [Prost] {a : Image} {rows : Rows} {idx : Indexes} {id : String}

/-! ### The lookup -/

theorem Represents.queueOfInflightJob_of_leased (h : Represents a rows idx) {js : JobState}
    {attempt : UInt32} {expires : Int64} (hjob : a.jobs id = some js)
    (hplace : js.place = .leased attempt expires) :
    queueOfInflightJob rows id = .ok (some js.content.queue) := by
  rw [queueOfInflightJob, h.jobs.get_inflight hjob hplace]
  simp only [JobState.decode_inflight]
  rfl

theorem Represents.queueOfInflightJob_of_not_leased (h : Represents a rows idx)
    (hnot : ∀ js attempt expires, a.jobs id = some js → js.place ≠ .leased attempt expires) :
    queueOfInflightJob rows id = .ok none := by
  rw [queueOfInflightJob, h.jobs.get_inflight_eq_none hnot]

/-- The lookup finds the queue of a leased job, and nothing else. -/
theorem Represents.queueOfInflightJob_cases (h : Represents a rows idx) (id : String) :
    (∃ js, a.jobs id = some js ∧ queueOfInflightJob rows id = .ok (some js.content.queue)) ∨
      (∀ js attempt expires, a.jobs id = some js → js.place ≠ .leased attempt expires) ∧
        queueOfInflightJob rows id = .ok none := by
  by_cases hleased : ∃ js attempt expires, a.jobs id = some js ∧ js.place = .leased attempt expires
  · obtain ⟨js, attempt, expires, hjob, hplace⟩ := hleased
    exact .inl ⟨js, hjob, h.queueOfInflightJob_of_leased hjob hplace⟩
  · have hnot : ∀ js attempt expires, a.jobs id = some js → js.place ≠ .leased attempt expires :=
      fun js attempt expires hjob hplace => hleased ⟨js, attempt, expires, hjob, hplace⟩
    exact .inr ⟨hnot, h.queueOfInflightJob_of_not_leased hnot⟩

/-! ### Leases -/

variable {calls : List Call} {server : Server}

/-- Every lease that is granted keeps the limit of the job's own queue. -/
theorem Run.lease_bounds (durationNormalized : Duration → Duration) {cfg live : Config}
    (hcfg : cfg.validate = .ok ()) (hlive : live.validate = .ok ()) (h : Run calls server) :
    (∀ (req : ReserveRequest) (queues : List String) (lease maxJobs : UInt64),
      resolveReserve durationNormalized req (.fromConfig live) cfg.strictQueues (.fromConfig cfg) =
        .ok (.reserve queues lease maxJobs 0) →
      ∀ (now : Int64) (jobs : List Job) (server' : Server),
        CallStep server (.answered (.reserve queues lease maxJobs now) (.ok (.reserve jobs)))
          server' →
        ∀ job ∈ jobs, ∃ expires, job.leaseExpiresAt = some (millisToTimestamp expires) ∧
          LeaseWithin now expires
            ((QueueRegistry.fromConfig live).effective job.queue).maxLeaseDurationMs) ∧
    -- the lookup of an extend may see any earlier state of the run
    ∀ (past rest : List Call) (before : Server), calls = past ++ rest → Run past before →
      Trace CallStep before rest server →
      ∀ (req : ExtendRequest) (lease : UInt64), Validate.extendRequest req = .ok () →
        resolveExtendLease durationNormalized req (.fromConfig live) before.rows = .ok lease →
        ∀ (now : Int64) (r : ExtendOutcome) (server' : Server),
          CallStep server (.answered (.extend req lease now) (.ok (.extend r))) server' →
          queueOfInflightJob server.rows req.jobId = .ok (some r.queue) ∧
          LeaseWithin now r.leaseExpiresAt
            ((QueueRegistry.fromConfig live).effective r.queue).maxLeaseDurationMs := by
  have hvalid := Config.validate_ok_iff.mp hlive
  have hlimits : ∀ queue,
      1 ≤ ((QueueRegistry.fromConfig live).effective queue).maxLeaseDurationMs :=
    fun queue => (QueueRegistry.effective_valid queue hvalid).maxLeaseDurationMs
  obtain ⟨a, hshows, hcontents⟩ := h.exists_contents
  refine ⟨fun req queues lease maxJobs hresolve now jobs server' hstep job hjob => ?_, ?_⟩
  · obtain ⟨lease', maxJobs', hop, hnames, hone, hmax⟩ := resolveReserve_ok hlimits hresolve
    obtain ⟨rfl, rfl, -, -⟩ := Op.reserve.inj hop
    have hfits : ∀ queue ∈ req.queues, FitsPrefix queue := fun queue hqueue =>
      (hnames queue hqueue).trans (Config.validate_ok_iff.mp hcfg).maxQueueNameBytes_le
    have hqueue := hshows.queue_of_reserved hfits hstep job hjob
    obtain ⟨a', -, htrace, -⟩ := hshows.reserved hstep
    obtain ⟨js, attempt, -, -, heq⟩ := (ready_of_leases htrace).2 job hjob
    refine ⟨saturatingAdd now (i64OfU64 lease), ?_, leaseWithin now hone (hmax _ hqueue)⟩
    rw [heq]
    rfl
  · rintro past rest before rfl hpast - req lease - hresolve now r server' hstep
    obtain ⟨hone, hmax⟩ := resolveExtendLease_ok hlimits hresolve
    obtain ⟨js, expires, hjob, hplace, hqueue, hexpires⟩ := hshows.extended hstep
    rw [hqueue, hexpires, max_one_eq hone]
    refine ⟨hshows.queueOfInflightJob_of_leased hjob hplace, leaseWithin now hone ?_⟩
    rcases hmax with hmin | ⟨queue, hfound, hmax⟩
    · exact UInt64.le_trans hmin (QueueRegistry.minMaxLeaseMs_le _)
    · -- the job is the one that the lookup found, so its queue is the one it was found in
      obtain ⟨a₀, hshows₀, hcontents₀⟩ := hpast.exists_contents
      rcases hshows₀.queueOfInflightJob_cases req.jobId with ⟨js₀, hjob₀, hfound₀⟩ | ⟨-, hnone⟩
      · obtain rfl := Option.some.inj (Except.ok.inj (hfound.symm.trans hfound₀))
        rwa [hcontents₀.content_eq hcontents h.admissible hjob₀ hjob]
      · cases hfound.symm.trans hnone

end Leasing

/-- The id of a job. -/
def leasedId : String := "0190a1b2-0000-4000-8000-000000000001"

/-- A job of the queue `mail`. -/
def leasedOps : List Op :=
  [.enqueue [
    { id := leasedId
      req := { queue := "mail", jobType := "send" }
      limits := { priority := 5, maxAttempts := 3, dedupWindowMs := 60000 } }] 1000]

/-- A lease of half a microsecond. -/
def shortReserve : ReserveRequest where
  queues := ["mail"]
  leaseDuration := some { seconds := 0, nanos := 500 }

/-- Ten minutes more, which is more than the queue allows. -/
def longExtend : ExtendRequest where
  jobId := leasedId
  attempt := 1
  leaseDuration := some { seconds := 600, nanos := 0 }

open WireFormat Server in
/-- A lease is granted for a millisecond, and extended by five minutes. -/
theorem lease_bounds_shortReserve :
    (∃ jobs server', CallStep (performAll leasedOps {}).2
        (.answered (.reserve ["mail"] 1 1 2000) (.ok (.reserve jobs))) server' ∧ jobs ≠ [] ∧
      ∀ job ∈ jobs, ∃ expires, job.leaseExpiresAt = some (millisToTimestamp expires) ∧
        LeaseWithin 2000 expires
          ((QueueRegistry.fromConfig {}).effective job.queue).maxLeaseDurationMs) ∧
    ∃ r server', CallStep (performAll (leasedOps ++ [.reserve ["mail"] 1 1 2000]) {}).2
        (.answered (.extend longExtend 300000 2000) (.ok (.extend r))) server' ∧
      LeaseWithin 2000 r.leaseExpiresAt
        ((QueueRegistry.fromConfig {}).effective r.queue).maxLeaseDurationMs := by
  have hrun := Run.of_performAll (show ∀ op ∈ leasedOps, op.WellFormed by decide) (by decide)
  have hrun' := Run.of_performAll
    (show ∀ op ∈ leasedOps ++ [.reserve ["mail"] 1 1 2000], op.WellFormed by decide) (by decide)
  have hvalid : ({} : Config).validate = .ok () := by decide
  obtain ⟨hreserve, -⟩ := Run.lease_bounds id hvalid hvalid hrun
  obtain ⟨-, hextend⟩ := Run.lease_bounds id hvalid hvalid hrun'
  constructor
  · obtain ⟨a, hshows⟩ := hrun.exists_shows
    obtain ⟨jobs, server', -, hperform, -⟩ := hshows.perform_reserve ["mail"] 1 1 2000
    have hstep := callStep_perform (performAll leasedOps {}).2 (.reserve ["mail"] 1 1 2000)
    have hids : ((performAll leasedOps {}).2.perform
        (.reserve ["mail"] 1 1 2000)).1.delivered.map Job.id = [leasedId] := by decide +kernel
    rw [hperform] at hstep hids
    refine ⟨jobs, server', hstep, fun hnil => ?_, ?_⟩
    · rw [hnil] at hids
      cases hids
    · exact hreserve shortReserve ["mail"] 1 1 (by decide +kernel) 2000 jobs server' hstep
  · have hstep := callStep_perform (performAll (leasedOps ++ [.reserve ["mail"] 1 1 2000]) {}).2
      (.extend longExtend 300000 2000)
    have hanswer : ((performAll (leasedOps ++ [.reserve ["mail"] 1 1 2000]) {}).2.perform
        (.extend longExtend 300000 2000)).1 = .answered (.extend longExtend 300000 2000)
          (.ok (.extend { queue := "mail", leaseExpiresAt := 302000, traceContext := none })) := by
      decide +kernel
    rw [hanswer] at hstep
    refine ⟨_, _, hstep, ?_⟩
    exact (hextend _ [] _ (List.append_nil _).symm hrun' (Trace.nil _) longExtend 300000
      (by decide +kernel) (by decide +kernel) 2000 _ _ hstep).2

section Shortcuts

variable [Prost]

/-! ### Shortcuts -/

/-- The summaries of the registry spare the lookup, and nothing else. -/
theorem shortcuts_agree (durationNormalized : Duration → Duration)
    (retryJitterHash : String → UInt32 → UInt64) (cfg : Config) :
    (∀ queue, (QueueRegistry.fromConfig cfg).retryPolicy queue =
        ((QueueRegistry.fromConfig cfg).effective queue).retryPolicy ∧
      (QueueRegistry.fromConfig cfg).dedupWindowMs queue =
        ((QueueRegistry.fromConfig cfg).effective queue).dedupWindowMs) ∧
    ((QueueRegistry.fromConfig cfg).anyRetryPolicy = false → ∀ queue attempt jobId,
      policyRetryDelayMs retryJitterHash ((QueueRegistry.fromConfig cfg).retryPolicy queue) attempt
        jobId = 0) ∧
    (∀ requested, requested ≤ (QueueRegistry.fromConfig cfg).minMaxLeaseMs → ∀ queue,
      min requested ((QueueRegistry.fromConfig cfg).effective queue).maxLeaseDurationMs =
        requested) ∧
    ∀ (calls : List Call) (server : Server), Run calls server →
      (∀ req, resolveRetryDelay durationNormalized retryJitterHash req (.fromConfig cfg)
          (.fromConfig cfg) server.rows =
        lookupRetryDelay durationNormalized retryJitterHash req (.fromConfig cfg) server.rows) ∧
      ∀ req, (∃ queue, queueOfInflightJob server.rows req.jobId = .ok (some queue) ∧
          resolveExtendLease durationNormalized req (.fromConfig cfg) server.rows =
            lookupExtendLease durationNormalized req (.fromConfig cfg) server.rows) ∨
        -- without a lease the lookup refuses what the committer refuses after the shortcut
        queueOfInflightJob server.rows req.jobId = .ok none ∧
          lookupExtendLease durationNormalized req (.fromConfig cfg) server.rows =
            .error ⟨.notFound, "job not found"⟩ ∧
          ∀ lease now, server.perform (.extend req lease now) =
            (.answered (.extend req lease now) (.error ⟨.notFound, "job not found"⟩), server) := by
  have hzero : (QueueRegistry.fromConfig cfg).anyRetryPolicy = false → ∀ queue attempt jobId,
      policyRetryDelayMs retryJitterHash ((QueueRegistry.fromConfig cfg).retryPolicy queue) attempt
        jobId = 0 := by
    intro hany queue attempt jobId
    rw [policyRetryDelayMs, QueueRegistry.retryPolicy_eq]
    exact if_pos (QueueRegistry.retryDelayMs_eq_zero queue hany)
  have hmin : ∀ requested, requested ≤ (QueueRegistry.fromConfig cfg).minMaxLeaseMs → ∀ queue,
      min requested ((QueueRegistry.fromConfig cfg).effective queue).maxLeaseDurationMs =
        requested := fun requested hle queue =>
    if_pos (UInt64.le_trans hle (QueueRegistry.minMaxLeaseMs_le queue))
  refine ⟨fun queue => ⟨QueueRegistry.retryPolicy_eq _ _, QueueRegistry.dedupWindowMs_eq _ _⟩,
    hzero, hmin, fun calls server hrun => ?_⟩
  obtain ⟨a, hshows⟩ := hrun.exists_shows
  refine ⟨fun req => ?_, fun req => ?_⟩
  · rw [resolveRetryDelay]
    split_ifs with hshort
    · rw [Bool.and_eq_true, Option.isNone_iff_eq_none, Bool.not_eq_true'] at hshort
      rw [lookupRetryDelay, hshort.1]
      rcases hshows.queueOfInflightJob_cases req.jobId with ⟨js, -, hfound⟩ | ⟨-, hnone⟩
      · rw [hfound]
        exact congrArg Except.ok (hzero hshort.2 _ _ _).symm
      · rw [hnone]
        rfl
    · rfl
  · rcases hshows.queueOfInflightJob_cases req.jobId with ⟨js, -, hfound⟩ | ⟨hnot, hnone⟩
    · refine .inl ⟨_, hfound, ?_⟩
      rw [resolveExtendLease]
      split_ifs with hfast
      · rw [lookupExtendLease, hfound]
        exact congrArg Except.ok (hmin _ hfast _).symm
      · rfl
    · refine .inr ⟨hnone, ?_, fun lease now => ?_⟩
      · rw [lookupExtendLease, hnone]
        rfl
      · have hrejects : Rejects (applyOp (.extend req lease now)) a _ :=
          (fencedInflight_notFound hnot req.attempt).bind.bind
        obtain ⟨e, hperform, rfl⟩ := hshows.perform_of_rejects hrejects fun e he => by simp [he]
        exact hperform

end Shortcuts

/-- No queue delays its retries, and one allows shorter leases than the others. -/
def shortLeases : Config :=
  { queues := [{ name := "mail", maxLeaseDurationMs := some 1000 }] }

open WireFormat Server in
/-- A short lease and a nack without a delay need no lookup. -/
theorem shortcuts_agree_shortLeases :
    policyRetryDelayMs (fun _ _ => 7) ((QueueRegistry.fromConfig shortLeases).retryPolicy "mail") 2
        leasedId = 0 ∧
      min 1000 ((QueueRegistry.fromConfig shortLeases).effective "mail").maxLeaseDurationMs = 1000 ∧
      resolveRetryDelay id (fun _ _ => 7) { jobId := leasedId, attempt := 1 }
          (.fromConfig shortLeases) (.fromConfig shortLeases) (performAll leasedOps {}).2.rows =
        lookupRetryDelay id (fun _ _ => 7) { jobId := leasedId, attempt := 1 }
          (.fromConfig shortLeases) (performAll leasedOps {}).2.rows := by
  obtain ⟨-, hretry, hlease, hrun⟩ := shortcuts_agree id (fun _ _ => 7) shortLeases
  refine ⟨hretry (by decide) "mail" 2 leasedId, hlease 1000 (by decide) "mail", ?_⟩
  exact (hrun _ _ (Run.of_performAll (show ∀ op ∈ leasedOps, op.WellFormed by decide)
    (by decide))).1 _

end Sepp
