import Sepp.Safety.Fencing
import Sepp.Safety.Leasing
import Sepp.Safety.Ownership

/-!
# The lookup may race with the committer

`resolve_retry_delay` and `resolve_extend_lease` of `src/storage.rs` look up the queue of a job in a
snapshot, before the operation is proposed, while the committer goes on. For a worker that was
delivered the job before its request, and while the job is not put back in line by an operator,
this is safe: either the lease is still held when the operation is applied, and then the lookup
found the queue of the job, so that the delay or the lease is that of its queue; or it is not, and
then the operation is refused, whatever was resolved.

## Main definitions

* `Spent` — a job that is past an attempt.
* `queueRetryDelay`, `queueLease` — what a request resolves to in a queue.

## Main results

* `JobStep.spent` — a job comes back to an attempt by a new birth only.
* `Run.lookup_safe`.
-/

namespace Sepp

section Jobs

variable [Prost] {id : String} {n : UInt32} {x x' : Option JobState} {evs : List Event}

omit [Prost] in
/-- The job is gone, dead, or past the attempt. -/
def Spent (n : UInt32) (x : Option JobState) : Prop :=
  ∀ js, x = some js → js.place.IsDead ∨ n.toNat < js.place.attempt.toNat

omit [Prost] in
theorem spent_none (n : UInt32) : Spent n none := fun _ hjs => by cases hjs

omit [Prost] in
theorem spent_some_iff {js : JobState} :
    Spent n (some js) ↔ js.place.IsDead ∨ n.toNat < js.place.attempt.toNat := by
  simp [Spent]

omit [Prost] in
theorem leasedOn_some_iff {js : JobState} :
    LeasedOn n (some js) ↔ ∃ expires, js.place = .leased n expires := by
  simp [LeasedOn]

omit [Prost] in
theorem Spent.not_leasedOn (h : Spent n x) : ¬ LeasedOn n x := by
  rintro ⟨js, expires, rfl, hplace⟩
  rw [spent_some_iff, hplace] at h
  exact h.elim (fun hdead => hdead) (lt_irrefl _)

omit [Prost] in
/-- The attempt after a lease. -/
theorem Spent.of_next {js : JobState} {attempt m : UInt32} {expires : Int64} (js' : JobState)
    (hplace : js.place = .leased attempt expires) (hleft : attempt < m)
    (hnext : js'.place.attempt = attempt + 1) :
    (Spent n (some js) → Spent n (some js')) ∧ (LeasedOn n (some js) → Spent n (some js')) := by
  have hsucc := toNat_succ_of_lt hleft
  rw [spent_some_iff, spent_some_iff, leasedOn_some_iff, hplace, hnext, hsucc]
  constructor
  · rintro (hdead | hlt)
    · exact hdead.elim
    · exact .inr (Nat.lt_succ_of_lt hlt)
  · rintro ⟨expires', hleased⟩
    obtain ⟨rfl, -⟩ := Place.leased.inj hleased
    exact .inr (Nat.lt_succ_self _)

/-- Without a new birth a job does not come back to an attempt: what is spent stays spent, and what
is leased on the attempt is so until it is spent. -/
theorem JobStep.spent {e : Event} (h : JobStep id x e x') (hbirth : e.birth? ≠ some id) :
    (Spent n x → Spent n x') ∧ (LeasedOn n x → LeasedOn n x' ∨ Spent n x') := by
  have hdone : ∀ js' : JobState, js'.place.IsDead → Spent n (some js') := fun js' hdead =>
    spent_some_iff.mpr (.inl hdead)
  cases h with
  | other => exact ⟨fun hx => hx, .inl⟩
  | insert hq hid => exact absurd (congrArg some hid) hbirth
  | requeue => exact absurd rfl hbirth
  | lease hplace | promote hplace =>
    simp only [spent_some_iff, leasedOn_some_iff, hplace]
    exact ⟨fun hspent => hspent, fun ⟨_, hleased⟩ => by cases hleased⟩
  | @extend js attempt expires hplace expires' =>
    simp only [spent_some_iff, leasedOn_some_iff, hplace]
    refine ⟨fun hspent => hspent, fun ⟨_, hleased⟩ => .inl ⟨expires', ?_⟩⟩
    rw [(Place.leased.inj hleased).1]
  | @retry js attempt expires hplace hleft delayed =>
    obtain ⟨hspent, hleased⟩ := Spent.of_next { js with place := .retried attempt delayed } hplace
      hleft (by cases delayed <;> rfl)
    exact ⟨hspent, fun hon => .inr (hleased hon)⟩
  | @redeliver js attempt expires now hplace hdue hleft =>
    obtain ⟨hspent, hleased⟩ := Spent.of_next { js with place := .ready (attempt + 1) } hplace hleft
      rfl
    exact ⟨hspent, fun hon => .inr (hleased hon)⟩
  | keep => exact ⟨fun _ => hdone _ trivial, fun _ => .inr (hdone _ trivial)⟩
  | ack | drop | discard | purge => exact ⟨fun _ => spent_none n, fun _ => .inr (spent_none n)⟩

theorem spent_of_trace (h : Trace (JobStep id) x evs x')
    (hbirth : ∀ e ∈ evs, e.birth? ≠ some id) :
    (Spent n x → Spent n x') ∧ (LeasedOn n x → LeasedOn n x' ∨ Spent n x') := by
  induction h with
  | nil => exact ⟨fun hx => hx, .inl⟩
  | cons hstep _ ih =>
    obtain ⟨hspent, hleased⟩ := hstep.spent (hbirth _ List.mem_cons_self)
    obtain ⟨hspent', hleased'⟩ := ih fun e he => hbirth e (List.mem_cons_of_mem _ he)
    refine ⟨fun hx => hspent' (hspent hx), fun hx => ?_⟩
    exact (hleased hx).elim hleased' fun hmid => .inr (hspent' hmid)

end Jobs

/-! ### What a request resolves to -/

section Resolved

variable (durationNormalized : Duration → Duration)

/-- The delay of a retry in a queue: that of the request, which the queue bounds, or that of the
queue. -/
def queueRetryDelay (retryJitterHash : String → UInt32 → UInt64) (req : NackRequest)
    (registry : QueueRegistry) (queue : String) : UInt64 :=
  match explicitDelay durationNormalized req with
  | some ms => min ms (registry.retryPolicy queue).maxScheduleHorizonMs
  | none => policyRetryDelayMs retryJitterHash (registry.retryPolicy queue) req.attempt req.jobId

/-- The lease that an extend asks for, in a queue. -/
def queueLease (req : ExtendRequest) (registry : QueueRegistry) (queue : String) : UInt64 :=
  min (requestedLease durationNormalized req) (registry.effective queue).maxLeaseDurationMs

variable [Prost] {durationNormalized} {rows : Rows} {queue : String}

/-- A nack that finds its job resolves to the delay of the queue of the job, by the registry that
it looked at. -/
theorem resolveRetryDelay_of_found (retryJitterHash : String → UInt32 → UInt64)
    {req : NackRequest} (hfound : queueOfInflightJob rows req.jobId = .ok (some queue))
    (cfg later : Config) : ∃ used, (used = cfg ∨ used = later) ∧
      resolveRetryDelay durationNormalized retryJitterHash req (.fromConfig cfg)
        (.fromConfig later) rows =
      .ok (queueRetryDelay durationNormalized retryJitterHash req (.fromConfig used) queue) := by
  rw [resolveRetryDelay]
  split_ifs with hshort
  · rw [Bool.and_eq_true, Option.isNone_iff_eq_none, Bool.not_eq_true'] at hshort
    obtain ⟨hnone, hany⟩ := hshort
    refine ⟨cfg, .inl rfl, congrArg Except.ok ?_⟩
    rw [queueRetryDelay, hnone, policyRetryDelayMs, QueueRegistry.retryPolicy_eq]
    exact (if_pos (QueueRegistry.retryDelayMs_eq_zero queue hany)).symm
  · refine ⟨later, .inr rfl, ?_⟩
    rw [lookupRetryDelay, hfound, queueRetryDelay]
    cases explicitDelay durationNormalized req <;> rfl

/-- An extend that finds its job resolves to the lease in the queue of the job. -/
theorem resolveExtendLease_of_found {req : ExtendRequest}
    (hfound : queueOfInflightJob rows req.jobId = .ok (some queue)) (cfg : Config) :
    resolveExtendLease durationNormalized req (.fromConfig cfg) rows =
      .ok (queueLease durationNormalized req (.fromConfig cfg) queue) := by
  rw [resolveExtendLease]
  split_ifs with hfast
  · rw [queueLease]
    exact congrArg Except.ok
      (if_pos (UInt64.le_trans hfast (QueueRegistry.minMaxLeaseMs_le queue))).symm
  · rw [lookupExtendLease, hfound]
    rfl

end Resolved

/-! ### Runs -/

section Runs

variable [Prost] {id : String} {n : UInt32} {turns : List Turn} {s s' : Server × Image}

/-- Calls that neither enqueue the job nor put it back in line do not give birth to it. -/
theorem not_birth_of_turns (h : Trace TurnStep s turns s')
    (hnew : id ∉ enqueuedIds (turns.map Turn.call))
    (hspared : ∀ call ∈ turns.map Turn.call, id ∉ call.requeued) :
    ∀ e ∈ turns.flatMap Turn.events, e.birth? ≠ some id := by
  intro e he hbirth
  obtain ⟨t, ht, het⟩ := List.mem_flatMap.mp he
  have hexp : t.call.Explained t.events := explained_of_turns h t ht
  rcases hexp.births_iff.mpr ⟨e, het, hbirth⟩ with hinserts | hrequeued
  · obtain ⟨job, now, hmem, rfl⟩ := hexp.inserts_iff.mp hinserts
    exact hnew (List.mem_map_of_mem (mem_jobs_of_insert h (List.mem_flatMap.mpr ⟨t, ht, hmem⟩)))
  · exact hspared t.call (List.mem_map_of_mem ht) hrequeued

/-- A lease that is held after such calls was held before them, if it was granted before. -/
theorem leasedOn_before (h : Trace TurnStep s turns s')
    (hnew : id ∉ enqueuedIds (turns.map Turn.call))
    (hspared : ∀ call ∈ turns.map Turn.call, id ∉ call.requeued)
    (hbefore : LeasedOn n (s.2.jobs id) ∨ Spent n (s.2.jobs id)) :
    (LeasedOn n (s'.2.jobs id) ∨ Spent n (s'.2.jobs id)) ∧
      (LeasedOn n (s'.2.jobs id) → LeasedOn n (s.2.jobs id)) := by
  obtain ⟨hspent, hleased⟩ := spent_of_trace (n := n) (jobs_of_trace (events_of_turns h) id)
    (not_birth_of_turns h hnew hspared)
  refine ⟨hbefore.elim hleased fun hx => .inr (hspent hx), fun hafter => ?_⟩
  exact hbefore.resolve_right fun hx => (hspent hx).not_leasedOn hafter

/-- A job that is not enqueued again has the content that it had. -/
theorem content_of_turns (h : Trace TurnStep s turns s')
    (hnew : id ∉ enqueuedIds (turns.map Turn.call)) {js js' : JobState}
    (hjs : s.2.jobs id = some js) (hjs' : s'.2.jobs id = some js') : js'.content = js.content := by
  refine (jobs_of_trace (events_of_turns h) id).preserves
    (P := fun x => ∀ js', x = some js' → js'.content = js.content) (fun x e x' he hstep hx => ?_)
    (fun js' hjs' => ?_) js' hjs'
  · intro js' hjs'
    rcases hstep.content hjs' with ⟨js₀, rfl, hsame⟩ | ⟨job, now, hq, rfl, rfl, -⟩
    · rw [← hsame, hx js₀ rfl]
    · exact absurd (List.mem_map_of_mem (mem_jobs_of_insert h he)) hnew
  · rw [Option.some.inj (hjs.symm.trans hjs')]

/-- A job that is delivered is leased, in its queue. -/
theorem TurnStep.leased_of_delivered {t : Turn} (h : TurnStep s t s') {job : Job}
    (hjob : job ∈ t.call.delivered) : ∃ js expires, s'.2.jobs job.id = some js ∧
      js.place = .leased job.attempt expires ∧ js.content.queue.1 = job.queue := by
  obtain ⟨js, attempt, queues, leaseMs, maxJobs, now, jobs, hcall, hbefore, hready, hjob'⟩ :=
    h.exists_ready hjob
  have hreports : t.call.Reports job.id job.attempt (saturatingAdd now (i64OfU64 leaseMs)) := by
    rw [hcall] at hjob ⊢
    exact ⟨job, hjob, rfl, rfl, by rw [hjob']; rfl⟩
  obtain ⟨js', hafter, hplace⟩ := h.leasedTill hreports
  have hnone : job.id ∉ enqueuedIds ([t].map Turn.call) := by
    rw [List.map_singleton, hcall]
    exact List.not_mem_nil
  refine ⟨js', _, hafter, hplace, ?_⟩
  rw [content_of_turns (.single h) hnone hbefore hafter, hjob']
  rfl

/-- Let a job be delivered, let a request on the lease look up the queue of the job at any later
time, and let the operation come at any time after that, with no requeue of the job in between. If
the lease is then held, the lookup found the queue of the job, and what was resolved is the delay,
or the lease, of that queue. If not, the operation is refused and changes nothing. -/
theorem Run.lookup_safe {calls between rest : List Call} {granting : Call}
    {granted snapshot server : Server} {job : Job} (h : Run (calls ++ [granting]) granted)
    (hbetween : Trace CallStep granted between snapshot)
    (hrest : Trace CallStep snapshot rest server)
    (hadm : Admissible (calls ++ [granting] ++ (between ++ rest)))
    (hdelivered : job ∈ granting.delivered)
    (hspared : ∀ call ∈ between ++ rest, job.id ∉ call.requeued) :
    (server.rows.Leased job.id job.attempt →
      queueOfInflightJob snapshot.rows job.id = .ok (some job.queue) ∧
      (∀ durationNormalized retryJitterHash (req : NackRequest) (cfg later : Config),
        req.jobId = job.id → ∃ used, (used = cfg ∨ used = later) ∧
          resolveRetryDelay durationNormalized retryJitterHash req (.fromConfig cfg)
            (.fromConfig later) snapshot.rows =
          .ok (queueRetryDelay durationNormalized retryJitterHash req (.fromConfig used)
            job.queue)) ∧
      ∀ durationNormalized (req : ExtendRequest) (cfg : Config), req.jobId = job.id →
        resolveExtendLease durationNormalized req (.fromConfig cfg) snapshot.rows =
          .ok (queueLease durationNormalized req (.fromConfig cfg) job.queue)) ∧
    (¬ server.rows.Leased job.id job.attempt → ∀ op : Op, op.UsesLease job.id job.attempt →
      ∀ result server', CallStep server (.answered op result) server' →
        server' = server ∧ ∃ e, result = .error e ∧
          ((e.code = .notFound ∨ e.code = .failedPrecondition) ∨ e.code = .internal)) := by
  obtain ⟨turns, a, hcalls, hturns, hshows, hknows⟩ := h.exists_turns
  have hfresh := hadm.fresh
  have hids : enqueuedIds (calls ++ [granting] ++ (between ++ rest)) =
      enqueuedIds (calls ++ [granting]) ++ enqueuedIds between ++ enqueuedIds rest := by
    simp [enqueuedIds]
  rw [hids] at hfresh
  obtain ⟨turns₁, a₁, rfl, hturns₁, hshows₁, hknows₁⟩ := Sepp.exists_turns hbetween hshows hknows
    (fun call hcall => hadm.wellFormed call (by simp [hcall])) (List.nodup_append.mp hfresh).1
  obtain ⟨turns₂, a₂, rfl, hturns₂, hshows₂, -⟩ := Sepp.exists_turns hrest hshows₁ hknows₁
    (fun call hcall => hadm.wellFormed call (by simp [hcall])) hfresh
  -- the job is leased when it is delivered, in its queue
  obtain ⟨js, expires, hjob, hplace, hqueue⟩ : ∃ js expires, a.jobs job.id = some js ∧
      js.place = .leased job.attempt expires ∧ js.content.queue.1 = job.queue := by
    obtain ⟨earlier, last, rfl, -, hlast⟩ := List.map_eq_append_iff.mp hcalls
    obtain ⟨turn, rfl, rfl⟩ := List.map_eq_singleton_iff.mp hlast
    obtain ⟨⟨server₀, a₀⟩, -, hturn⟩ := hturns.split_last
    exact hturn.leased_of_delivered hdelivered
  have hknown : job.id ∈ enqueuedIds (calls ++ [granting]) :=
    hknows job.id (by rw [hjob]; exact Option.some_ne_none js)
  have hbefore := (List.nodup_append.mp hfresh).1
  have hnew₁ : job.id ∉ enqueuedIds (turns₁.map Turn.call) := fun hmem =>
    (List.nodup_append.mp hbefore).2.2 _ hknown _ hmem rfl
  have hnew₂ : job.id ∉ enqueuedIds (turns₂.map Turn.call) := fun hmem =>
    (List.nodup_append.mp hfresh).2.2 _ (List.mem_append_left _ hknown) _ hmem rfl
  obtain ⟨hmid, -⟩ := leasedOn_before hturns₁ hnew₁
    (fun call hcall => hspared call (List.mem_append_left _ hcall)) (.inl ⟨js, expires, hjob, hplace⟩)
  obtain ⟨-, hback⟩ := leasedOn_before hturns₂ hnew₂
    (fun call hcall => hspared call (List.mem_append_right _ hcall)) hmid
  constructor
  · intro hleased
    obtain ⟨js₁, expires₁, hjob₁, hplace₁⟩ := hback (hshows₂.leased_iff.mp hleased)
    have hfound : queueOfInflightJob snapshot.rows job.id = .ok (some job.queue) := by
      rw [hshows₁.queueOfInflightJob_of_leased hjob₁ hplace₁,
        content_of_turns hturns₁ hnew₁ hjob hjob₁, hqueue]
    refine ⟨hfound, fun durationNormalized retryJitterHash req cfg later hreq => ?_,
      fun durationNormalized req cfg hreq => ?_⟩
    · exact resolveRetryDelay_of_found retryJitterHash (hreq ▸ hfound) cfg later
    · exact resolveExtendLease_of_found (hreq ▸ hfound) cfg
  · intro hnot op hop result server' hstep
    exact hshows₂.callStep_of_rejects (hshows₂.refuses hnot hop) hstep

end Runs

/-! ### A lookup that is late -/

/-- A queue that delays its retries by a second. -/
def delayedRetries : Config := { queues := [{ name := "mail", retryDelayMs := some 1000 }] }

/-- A job is leased for a minute. -/
def leasedRun : List Op := leasedOps ++ [.reserve ["mail"] 60000 1 2000]

/-- The delivery of the job. -/
def leasedJob : Job where
  id := leasedId
  jobType := "send"
  payload := none
  priority := 5
  traceContext := none
  enqueuedAt := some { seconds := 1, nanos := 0 }
  attempt := 1
  maxAttempts := 3
  leaseExpiresAt := some { seconds := 62, nanos := 0 }
  custom := []
  scheduledAt := none
  queue := "mail"

open WireFormat Server in
/-- The queue is looked up after a sweep, and another one comes before the operation. -/
theorem lookup_safe_leasedRun :
    queueOfInflightJob (performAll [.sweep 2500 100 none true] (performAll leasedRun {}).2).2.rows
        leasedId = .ok (some "mail") ∧
      resolveRetryDelay id (fun _ _ => 7) { jobId := leasedId, attempt := 1 }
        (.fromConfig delayedRetries) (.fromConfig delayedRetries)
        (performAll [.sweep 2500 100 none true] (performAll leasedRun {}).2).2.rows =
      .ok (queueRetryDelay id (fun _ _ => 7) { jobId := leasedId, attempt := 1 }
        (.fromConfig delayedRetries) "mail") := by
  have hcalls : (performAll leasedRun {}).1 = (performAll leasedOps {}).1 ++
      [.answered (.reserve ["mail"] 60000 1 2000) (.ok (.reserve [leasedJob]))] := by
    decide +kernel
  have hrun := Run.of_performAll (show ∀ op ∈ leasedRun, op.WellFormed by decide) (by decide)
  have hfirst := trace_performAll [.sweep 2500 100 none true] (performAll leasedRun {}).2
  have hsecond := trace_performAll [.sweep 3000 100 none true]
    (performAll [.sweep 2500 100 none true] (performAll leasedRun {}).2).2
  have hadm : Admissible ((performAll leasedRun {}).1 ++
      ((performAll [.sweep 2500 100 none true] (performAll leasedRun {}).2).1 ++
        (performAll [.sweep 3000 100 none true]
          (performAll [.sweep 2500 100 none true] (performAll leasedRun {}).2).2).1)) :=
    ⟨by decide +kernel, by decide +kernel⟩
  rw [hcalls] at hrun hadm
  have hrow : ∃ bytes record, (performAll [.sweep 3000 100 none true]
      (performAll [.sweep 2500 100 none true] (performAll leasedRun {}).2).2).2.rows.inflight[
        asBytes leasedId]? = some bytes ∧ Inflight.decode bytes = .ok record ∧
      record.attempt = 1 ∧ record.leaseExpiresAt = 62000 :=
    ⟨Inflight.encode ⟨1, 62000, 1000, 5, 3, "mail", none⟩, _, by decide +kernel,
      Inflight.decode_encode (by decide), rfl, rfl⟩
  obtain ⟨hheld, -⟩ := hrun.lookup_safe hfirst hsecond hadm List.mem_cons_self (by decide +kernel)
  obtain ⟨hfound, hretry, -⟩ := hheld ⟨62000, hrow⟩
  obtain ⟨used, hused, hdelay⟩ := hretry id (fun _ _ => 7) { jobId := leasedId, attempt := 1 }
    delayedRetries delayedRetries rfl
  rw [hused.elim (fun h => h) fun h => h] at hdelay
  exact ⟨hfound, hdelay⟩

end Sepp
