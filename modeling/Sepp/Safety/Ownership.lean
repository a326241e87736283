import Sepp.Run.Deliveries
import Sepp.Safety.Reserving
import Sepp.Spec.Standing
import Sepp.Wire.Codec

/-!
# A lease is exclusive until it ends

A worker that was told a lease owns the job until it acks or nacks the lease, until the lease is
extended, or until a sweep comes at its end or later. In the meantime nothing touches the rows of
the job, and no one else is given it. A sweep expires whatever a lease timer names, so this rests on
the timers: a leased job has one, and it is at the end that was told last.

## Main definitions

* `Call.Reports` — the answer tells the end of a lease.
* `Call.EndsLease` — the call ends the lease, or sets a new end.
* `Rows.LeaseHeld` — the rows of a leased job.

## Main results

* `Run.lease_exclusive`.
-/

open Std

namespace Sepp

variable {id : String} {attempt : UInt32} {expires : Int64}

/-- The answer of a reserve or an extend says that the lease of the job on the attempt ends at
`expires`. -/
def Call.Reports [Prost] (id : String) (attempt : UInt32) (expires : Int64) : Call → Prop
  | answered _ (.ok (.reserve jobs)) => ∃ job ∈ jobs, job.id = id ∧ job.attempt = attempt ∧
      job.leaseExpiresAt = some (millisToTimestamp expires)
  | answered (.extend req _ _) (.ok (.extend r)) =>
    req.jobId = id ∧ req.attempt = attempt ∧ r.leaseExpiresAt = expires
  | _ => False

/-- An ack, a nack or an extend of the lease that succeeds, or a sweep at its end or later. -/
def Call.EndsLease (id : String) (attempt : UInt32) (expires : Int64) : Call → Prop
  | answered (.ack id' attempt') (.ok _) => id' = id ∧ attempt' = attempt
  | answered (.nack req _ _ _) (.ok _) => req.jobId = id ∧ req.attempt = attempt
  | answered (.extend req _ _) (.ok _) => req.jobId = id ∧ req.attempt = attempt
  | answered (.sweep now _ _ _) (.ok _) => ¬ now < expires
  | _ => False

section Ownership

variable [Prost]

/-- The job has its record, an inflight record on the attempt, and one lease timer, at the end of
the lease. -/
structure Rows.LeaseHeld (rows : Rows) (id : String) (attempt : UInt32) (expires : Int64) :
    Prop where
  job : asBytes id ∈ rows.jobs
  inflight : rows.LeasedUntil id attempt expires
  timer : ∀ key, key ∈ rows.leases ∧ timerJob key = some id ↔
    key = TimerKey.encode { deadline := expires, jobId := id }

/-- The job is leased on the attempt until `expires`. -/
def LeasedTill (attempt : UInt32) (expires : Int64) (x : Option JobState) : Prop :=
  ∃ js, x = some js ∧ js.place = .leased attempt expires

theorem Represents.leaseHeld {a : Image} {rows : Rows} {idx : Indexes} (h : Represents a rows idx)
    (hleased : LeasedTill attempt expires (a.jobs id)) : rows.LeaseHeld id attempt expires := by
  obtain ⟨js, hJ, hp⟩ := hleased
  refine ⟨h.jobs.mem_jobs hJ (by simp [hp, Place.IsDead]), h.leasedUntil_iff.mpr ⟨js, hJ, hp⟩,
    fun key => ?_⟩
  rw [h.mem_leases_iff]
  constructor
  · rintro ⟨hkey, hid⟩
    obtain ⟨queue, hentry⟩ := ExtTreeMap.mem_iff_exists.mp hkey
    obtain ⟨id', js', attempt', expires', hJ', hp', rfl, -⟩ := h.jobs.of_lease_entry hentry
    rw [timerJob_encode, Option.some.injEq] at hid
    obtain rfl := hid
    obtain rfl := Option.some.inj (hJ.symm.trans hJ')
    obtain ⟨-, rfl⟩ := Place.leased.inj (hp.symm.trans hp')
    rfl
  · rintro rfl
    refine ⟨ExtTreeMap.mem_iff_exists.mpr ⟨_, h.jobs.get_lease_entry hJ hp⟩, ?_⟩
    exact timerJob_encode expires id

/-! ### What an operation leaves alone -/

omit [Prost] in
/-- A leased job is given up on its attempt, by no operator, and as expired at its end or later. -/
theorem JobState.GivenUp.of_leased {js : JobState} {n : UInt32} {failedAt : Int64}
    {cause : DeadLetterCause} (h : js.GivenUp n failedAt cause)
    (hp : js.place = .leased attempt expires) :
    n = attempt ∧ cause ≠ .admin ∧ (cause = .leaseExpired → ¬ failedAt < expires) := by
  cases cause with
  | unspecified => exact h.elim
  | admin => rcases h with h | ⟨deadline, h⟩ <;> cases hp.symm.trans h
  | rejected =>
    obtain ⟨expires', h⟩ := h
    exact ⟨(Place.leased.inj (h.symm.trans hp)).1, by simp, by simp⟩
  | attemptsExhausted =>
    obtain ⟨-, expires', h⟩ := h
    exact ⟨(Place.leased.inj (h.symm.trans hp)).1, by simp, by simp⟩
  | leaseExpired =>
    obtain ⟨-, expires', h, hdue⟩ := h
    obtain ⟨rfl, rfl⟩ := Place.leased.inj (h.symm.trans hp)
    exact ⟨rfl, by simp, fun _ => hdue⟩

/-- An operation that does not end the lease leaves the job as it is. -/
theorem JobStep.eq_of_leasedTill {x x' : Option JobState} {e : Event} (h : JobStep id x e x')
    (hx : LeasedTill attempt expires x) {op : Op} {r : OpOutcome} (hmakes : op.Makes e)
    (hends : ¬ (Call.answered op (.ok r)).EndsLease id attempt expires) : x' = x := by
  obtain ⟨js, rfl, hp⟩ := hx
  cases h with
  | other => rfl
  | lease hplace | promote hplace | requeue hplace | discard hplace =>
    cases hp.symm.trans hplace
  | purge hplace => rcases hplace with hplace | ⟨deadline, hplace⟩ <;> cases hp.symm.trans hplace
  | ack hplace =>
    obtain ⟨rfl, -⟩ := Place.leased.inj (hp.symm.trans hplace)
    obtain rfl := hmakes.of_ack
    exact absurd ⟨rfl, rfl⟩ hends
  | retry hplace =>
    obtain ⟨rfl, -⟩ := Place.leased.inj (hp.symm.trans hplace)
    obtain ⟨req, retryDelayMs, kept, now, rfl, hid, hattempt, -⟩ := hmakes.of_retry
    exact absurd ⟨hid, hattempt⟩ hends
  | extend hplace =>
    obtain ⟨rfl, -⟩ := Place.leased.inj (hp.symm.trans hplace)
    obtain ⟨req, leaseMs, now, rfl, hid, hattempt, -⟩ := hmakes.of_extend
    exact absurd ⟨hid, hattempt⟩ hends
  | redeliver hplace hdue =>
    obtain ⟨-, rfl⟩ := Place.leased.inj (hp.symm.trans hplace)
    obtain ⟨budget, cutoff, kept, rfl⟩ := hmakes.of_redeliver
    exact absurd hdue hends
  | keep hgiven | drop hgiven =>
    -- a leased job is given up by a nack, or by a sweep when its lease has run out
    obtain ⟨rfl, hadmin, hdue⟩ := hgiven.of_leased hp
    rcases hmakes.of_bury with ⟨req, retryDelayMs, rfl, hid, hattempt, -⟩ |
      ⟨state, keys, rfl, hcause⟩ | ⟨budget, cutoff, rfl, hcause, -⟩
    · exact absurd ⟨hid, hattempt⟩ hends
    · exact absurd hcause hadmin
    · exact absurd (hdue hcause) hends

/-! ### The lease is granted -/

/-- The jobs of a reserve are leased after it. -/
theorem leasedTill_of_leases {a a' : Image} {jobs : List Job} {leaseMs : UInt64} {now : Int64}
    (htrace : Trace Step a
      (jobs.map (Event.lease · (saturatingAdd now (i64OfU64 leaseMs)))) a')
    {job : Job} (hjob : job ∈ jobs) :
    LeasedTill job.attempt (saturatingAdd now (i64OfU64 leaseMs)) (a'.jobs job.id) := by
  induction jobs generalizing a with
  | nil => cases hjob
  | cons first jobs ih =>
    cases htrace with
    | cons hstep hrest =>
      rcases List.mem_cons.mp hjob with rfl | hjob
      · cases hstep with
        | @lease id js attempt expires hJ hp =>
          refine (jobs_of_trace hrest id).preserves
            (P := LeasedTill attempt (saturatingAdd now (i64OfU64 leaseMs)))
            (fun x e x' he hstep hx => ?_) ⟨_, Function.update_self .., rfl⟩
          obtain ⟨job', -, rfl⟩ := List.mem_map.mp he
          have hmakes : (Op.reserve [] leaseMs 0 now).Makes
              (.lease job' (saturatingAdd now (i64OfU64 leaseMs))) := ⟨job', rfl⟩
          rwa [hstep.eq_of_leasedTill (r := .reserve []) hx hmakes (fun h => h)]
      · exact ih hrest hjob

/-- A lease whose end is reported is held. -/
theorem TurnStep.leasedTill {t : Turn} {s s' : Server × Image} (h : TurnStep s t s')
    (hreports : t.call.Reports id attempt expires) :
    LeasedTill attempt expires (s'.2.jobs id) := by
  obtain ⟨call, evs⟩ := t
  have hexp : call.Explained evs := h.explained
  have hevents : Trace Step s.2 evs s'.2 := h.events
  change call.Reports id attempt expires at hreports
  unfold Call.Reports at hreports
  split at hreports
  · rename_i op jobs
    obtain ⟨job, hjob, rfl, rfl, hexpires⟩ := hreports
    cases op with
    | reserve queues leaseMs maxJobs now =>
      rw [show evs = _ from hexp] at hevents
      obtain ⟨-, hready⟩ := ready_of_leases hevents
      obtain ⟨js, n, -, -, hjob'⟩ := hready job hjob
      rw [hjob'] at hexpires
      obtain rfl := millisToTimestamp_injective (Option.some.inj hexpires)
      exact leasedTill_of_leases hevents hjob
    | _ => exact hexp.elim
  · rename_i req leaseMs now r
    obtain ⟨rfl, rfl, rfl⟩ := hreports
    rw [show evs = _ from hexp.1] at hevents
    obtain ⟨server', a'⟩ := s'
    cases hevents with
    | cons hstep hnil =>
      cases hnil
      cases hstep with
      | extend hJ hp => exact ⟨_, Function.update_self .., rfl⟩
  · exact hreports.elim

/-! ### The lease is held -/

/-- A call that does not end the lease leaves the job as it is, and does not deliver it. -/
theorem TurnStep.eq_of_leasedTill {t : Turn} {s s' : Server × Image} (h : TurnStep s t s')
    (hleased : LeasedTill attempt expires (s.2.jobs id))
    (hends : ¬ t.call.EndsLease id attempt expires) :
    s'.2.jobs id = s.2.jobs id ∧ ∀ job ∈ t.call.delivered, job.id ≠ id := by
  refine ⟨?_, ?_⟩
  · refine (jobs_of_trace h.events id).preserves (P := fun x => x = s.2.jobs id)
      (fun x e x' he hstep hx => ?_) rfl
    obtain ⟨op, r, hcall, hmakes⟩ := h.explained.exists_op he
    rw [hcall] at hends
    rw [← hx] at hleased
    rw [hstep.eq_of_leasedTill hleased hmakes hends, hx]
  · rintro job hjob rfl
    obtain ⟨js, n, -, -, -, -, -, -, hJ, hp, -⟩ := h.exists_ready hjob
    obtain ⟨js', hJ', hp'⟩ := hleased
    obtain rfl := Option.some.inj (hJ.symm.trans hJ')
    cases hp.symm.trans hp'

/-- A run of such calls leaves it as it is, too. -/
theorem eq_of_turns {turns : List Turn} {s s' : Server × Image} (h : Trace TurnStep s turns s')
    (hleased : LeasedTill attempt expires (s.2.jobs id))
    (hends : ∀ t ∈ turns, ¬ t.call.EndsLease id attempt expires) :
    s'.2.jobs id = s.2.jobs id ∧ ∀ t ∈ turns, ∀ job ∈ t.call.delivered, job.id ≠ id := by
  induction h with
  | nil => exact ⟨rfl, fun t ht => by cases ht⟩
  | cons hturn _ ih =>
    obtain ⟨hsame, hnone⟩ := hturn.eq_of_leasedTill hleased (hends _ List.mem_cons_self)
    obtain ⟨hsame', hnone'⟩ := ih (hsame ▸ hleased) fun t ht => hends t (List.mem_cons_of_mem _ ht)
    exact ⟨hsame'.trans hsame, List.forall_mem_cons.mpr ⟨hnone, hnone'⟩⟩

/-- From the answer that reports the end of a lease to the call that ends the lease or sets a new
end, the lease is held: all rows of the job stay as they are, with one lease timer, at the end that
was reported, and the job is not delivered. -/
theorem Run.lease_exclusive {calls later : List Call} {granting : Call} {granted server : Server}
    (h : Run (calls ++ [granting]) granted) (hlater : Trace CallStep granted later server)
    (hadm : Admissible (calls ++ [granting] ++ later))
    (hreports : granting.Reports id attempt expires)
    (hends : ∀ call ∈ later, ¬ call.EndsLease id attempt expires) :
    granted.rows.LeaseHeld id attempt expires ∧ server.rows.LeaseHeld id attempt expires ∧
      granted.rows.SameJob server.rows id ∧
      ∀ call ∈ later, ∀ job ∈ call.delivered, job.id ≠ id := by
  obtain ⟨turns, a, turns', a', hcalls, rfl, hturns, hshows, hturns', hshows'⟩ :=
    h.exists_later_turns hlater hadm
  have hleased : LeasedTill attempt expires (a.jobs id) := by
    obtain ⟨earlier, last, rfl, -, hlast⟩ := List.map_eq_append_iff.mp hcalls
    obtain ⟨turn, rfl, rfl⟩ := List.map_eq_singleton_iff.mp hlast
    obtain ⟨s, -, hturn⟩ := hturns.split_last
    exact hturn.leasedTill hreports
  obtain ⟨hsame, hnone⟩ := eq_of_turns hturns' hleased fun t ht =>
    hends t.call (List.mem_map_of_mem ht)
  refine ⟨hshows.leaseHeld hleased, hshows'.leaseHeld (hsame ▸ hleased),
    hshows.sameJob hshows' hsame, fun call hcall => ?_⟩
  obtain ⟨t, ht, rfl⟩ := List.mem_map.mp hcall
  exact hnone t ht

end Ownership

/-- A job is leased, and its lease is extended. -/
def extendedLease : List Op :=
  [.enqueue [
    { id := "a"
      req := { queue := "emails", jobType := "send" }
      limits := { priority := 5, maxAttempts := 3, dedupWindowMs := 60000 } }] 1000,
   .reserve ["emails"] 30000 1 2000, .extend { jobId := "a", attempt := 1 } 60000 3000]

/-- A sweep after the first end of the lease, another reserve, and a purge. -/
def afterExtend : List Op :=
  [.sweep 40000 100 none true, .reserve ["emails"] 30000 1 41000, .purgeQueueChunk "emails" 10]

open WireFormat Server in
/-- The lease is held until its second end. -/
theorem lease_exclusive_extendedLease :
    (performAll afterExtend (performAll extendedLease {}).2).2.rows.LeaseHeld "a" 1 63000 ∧
      ∀ call ∈ (performAll afterExtend (performAll extendedLease {}).2).1,
        ∀ job ∈ call.delivered, job.id ≠ "a" := by
  have hcalls : (performAll extendedLease {}).1 = (performAll (extendedLease.take 2) {}).1 ++
      [.answered (.extend { jobId := "a", attempt := 1 } 60000 3000)
        (.ok (.extend { queue := "emails", leaseExpiresAt := 63000, traceContext := none }))] := by
    decide +kernel
  have hlater : (performAll afterExtend (performAll extendedLease {}).2).1 =
      [.answered (.sweep 40000 100 none true) (.ok (.sweep 0)),
       .answered (.reserve ["emails"] 30000 1 41000) (.ok (.reserve [])),
       .answered (.purgeQueueChunk "emails" 10)
        (.error ⟨.failedPrecondition, "queue has in-flight jobs"⟩)] := by
    decide +kernel
  have hrun : Run (performAll extendedLease {}).1 (performAll extendedLease {}).2 :=
    Run.of_performAll (by decide) (by decide)
  have hadm : Admissible ((performAll extendedLease {}).1 ++
      (performAll afterExtend (performAll extendedLease {}).2).1) :=
    ⟨by decide +kernel, by decide +kernel⟩
  rw [hcalls] at hrun hadm
  obtain ⟨-, hheld, -, hnone⟩ := hrun.lease_exclusive
    (trace_performAll afterExtend (performAll extendedLease {}).2) hadm
    (show Call.Reports "a" 1 63000 _ from ⟨rfl, rfl, rfl⟩) (by simp [hlater, Call.EndsLease])
  exact ⟨hheld, hnone⟩

end Sepp
