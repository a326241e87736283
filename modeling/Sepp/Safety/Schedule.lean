import Sepp.Run.Deliveries
import Sepp.Spec.Lifecycle
import Sepp.Spec.Standing
import Sepp.Wire.Codec

/-!
# No job is early

When the stamps of a run do not go back, a job is never delivered before the time it is scheduled
for, nor before the delay of the nack that ended its last delivery. A job that has to wait is kept
under a timer with its time; only a sweep whose stamp has reached the time makes it ready, and
later stamps have reached it too.

## Main definitions

* `HeldUntil` — a place that keeps a job from being delivered before a time.

## Main results

* `Run.never_early`.
-/

namespace Sepp

/-- The stamps have reached the time, or the job is under a timer that is not due before it, or it
is dead. -/
def HeldUntil (due : Int64) (stamps : List Int64) (p : Place) : Prop :=
  (∃ t ∈ stamps, due ≤ t) ∨ (∃ n deadline, p = .scheduled n deadline ∧ due ≤ deadline) ∨ p.IsDead

namespace HeldUntil

variable {due : Int64} {stamps stamps' : List Int64} {p : Place}

/-- A job that is held and can be delivered has waited long enough. -/
theorem of_ready {n : UInt32} (h : HeldUntil due stamps (.ready n)) : ∃ t ∈ stamps, due ≤ t := by
  rcases h with h | ⟨n, deadline, hp, -⟩ | h
  · exact h
  · cases hp
  · exact h.elim

theorem of_leased {n : UInt32} {expires : Int64} (h : HeldUntil due stamps (.leased n expires)) :
    ∃ t ∈ stamps, due ≤ t := by
  rcases h with h | ⟨n, deadline, hp, -⟩ | h
  · exact h
  · cases hp
  · exact h.elim

variable [Prost] {id : String} {js js' : JobState} {e : Event}

/-- A step that does not start the job over keeps it held; a promotion comes with a stamp that has
reached the time. -/
theorem step (h : HeldUntil due stamps js.place) (hstep : JobStep id (some js) e (some js'))
    (hbirth : e.birth? ≠ some id) (hstamp : ∀ queue now, e = .promote id queue now → now ∈ stamps) :
    HeldUntil due stamps js'.place := by
  cases hstep with
  | other => exact h
  | lease hplace =>
    rw [hplace] at h
    exact .inl h.of_ready
  | retry hplace | extend hplace | redeliver hplace =>
    rw [hplace] at h
    exact .inl h.of_leased
  | @promote _ n deadline now hplace hdue =>
    rcases h with h | ⟨k, deadline', hp, hle⟩ | h
    · exact .inl h
    · cases hplace.symm.trans hp
      exact .inl ⟨now, hstamp _ now rfl, Int64.le_trans hle (Int64.not_lt.mp hdue)⟩
    · rw [hplace] at h
      exact h.elim
  | keep => exact .inr (.inr trivial)
  | requeue => exact absurd rfl hbirth

end HeldUntil

section Runs

variable [Prost] {id : String} {due : Int64} {stamps : List Int64} {x x' : Option JobState}
  {evs : List Event}

/-- A job that is held stays held as long as it does not start over. -/
theorem held_of_trace (h : Trace (JobStep id) x evs x') (hbirth : ∀ e ∈ evs, e.birth? ≠ some id)
    (hstamp : ∀ queue now, .promote id queue now ∈ evs → now ∈ stamps)
    (hx : ∀ js, x = some js → HeldUntil due stamps js.place) :
    ∀ js, x' = some js → HeldUntil due stamps js.place := by
  refine h.preserves (P := fun x => ∀ js, x = some js → HeldUntil due stamps js.place)
    (fun x e x' he hstep hx => ?_) hx
  rintro js' rfl
  cases x with
  | none =>
    cases hstep with
    | insert hq hid => exact absurd (congrArg some hid) (hbirth _ he)
  | some js =>
    refine (hx js rfl).step hstep (hbirth e he) ?_
    rintro queue now rfl
    exact hstamp queue now he

/-- A job that is scheduled for a time is held until then. -/
def Scheduled (stamps : List Int64) (x : Option JobState) : Prop :=
  ∀ js ts, x = some js → js.scheduledAt = some ts →
    HeldUntil (timestampToMillis ts) stamps js.place

theorem PreparedJob.firstPlace_held {job : PreparedJob} {now : Int64} {ts : Timestamp}
    (hts : job.req.scheduledAt = some ts) (hnow : now ∈ stamps) :
    HeldUntil (timestampToMillis ts) stamps (job.firstPlace now) := by
  rw [firstPlace, hts, Option.map_some]
  dsimp only
  split_ifs with hlt
  · exact .inr (.inl ⟨_, _, rfl, Int64.le_refl _⟩)
  · exact .inl ⟨now, hnow, Int64.not_lt.mp hlt⟩

theorem scheduled_of_trace (h : Trace (JobStep id) x evs x')
    (hpromote : ∀ queue now, .promote id queue now ∈ evs → now ∈ stamps)
    (hinsert : ∀ job now, .insert job now ∈ evs → now ∈ stamps) (hx : Scheduled stamps x) :
    Scheduled stamps x' := by
  refine h.preserves (fun x e x' he hstep hx => ?_) hx
  rintro js' ts rfl hts
  by_cases hbirth : e.birth? = some id
  · cases hstep with
    | other hid =>
      cases e with
      | insert | requeue => exact absurd hbirth hid
      | _ => cases hbirth
    | insert hq => exact PreparedJob.firstPlace_held hts (hinsert _ _ he)
    | requeue => cases hts
    | lease | retry | extend | promote | redeliver | keep => cases hbirth
  · cases x with
    | none =>
      cases hstep with
      | insert hq hid => exact absurd (congrArg some hid) hbirth
    | some js =>
      have hsame : js.scheduledAt = some ts := by
        cases hstep with
        | requeue => exact absurd rfl hbirth
        | other | lease | retry | extend | promote | redeliver | keep => exact hts
      refine (hx js ts rfl hsame).step hstep hbirth ?_
      rintro queue now rfl
      exact hpromote queue now he

omit [Prost] in
theorem Call.Explained.stamp_of_promote {call : Call} (h : call.Explained evs) {queue : String}
    {now : Int64} (he : .promote id queue now ∈ evs) : call.stamp? = some now := by
  obtain ⟨op, r, rfl, hmakes⟩ := h.exists_op he
  obtain ⟨budget, cutoff, kept, rfl⟩ := hmakes.of_promote
  rfl

omit [Prost] in
theorem Call.Explained.stamp_of_insert {call : Call} (h : call.Explained evs) {job : PreparedJob}
    {now : Int64} (he : .insert job now ∈ evs) : call.stamp? = some now := by
  obtain ⟨op, r, rfl, hmakes⟩ := h.exists_op he
  obtain ⟨jobs, rfl | rfl, -⟩ := hmakes.of_insert <;> rfl

omit [Prost] in
/-- The stamp of a turn is among the stamps of the run. -/
theorem mem_stampsOf {turns : List Turn} {t : Turn} {now : Int64} (ht : t ∈ turns)
    (hnow : t.call.stamp? = some now) : now ∈ stampsOf (turns.map Turn.call) :=
  List.mem_filterMap.mpr ⟨t.call, List.mem_map_of_mem ht, hnow⟩

/-- In every run, jobs are held until the time they are scheduled for. -/
theorem scheduled_of_turns {turns : List Turn} {s : Server × Image}
    (h : Trace TurnStep ({}, Image.empty) turns s) (id : String) :
    Scheduled (stampsOf (turns.map Turn.call)) (s.2.jobs id) := by
  have hexp := explained_of_turns h
  refine scheduled_of_trace (jobs_of_trace (events_of_turns h) id) ?_ ?_ (fun _ _ hjs => by cases hjs)
  · intro queue now hmem
    obtain ⟨t, ht, het⟩ := List.mem_flatMap.mp hmem
    exact mem_stampsOf ht ((hexp t ht).stamp_of_promote het)
  · intro job now hmem
    obtain ⟨t, ht, het⟩ := List.mem_flatMap.mp hmem
    exact mem_stampsOf ht ((hexp t ht).stamp_of_insert het)

/-- Without a requeue, a job keeps the time that its request asked for. -/
theorem scheduledAt_of_trace {job : PreparedJob} (h : Trace (JobStep job.id) x evs x')
    (hinsert : ∀ job' now, .insert job' now ∈ evs → job'.id = job.id → job' = job)
    (hrequeue : ∀ queue key now, .requeue job.id queue key now ∉ evs)
    (hx : ∀ js, x = some js → js.scheduledAt = job.req.scheduledAt) :
    ∀ js, x' = some js → js.scheduledAt = job.req.scheduledAt := by
  refine h.preserves (P := fun x => ∀ js, x = some js → js.scheduledAt = job.req.scheduledAt)
    (fun x e x' he hstep hx => ?_) hx
  rintro js' rfl
  cases hstep with
  | other => exact hx js' rfl
  | insert hq hid => exact hinsert _ _ he hid ▸ rfl
  | requeue => exact absurd he (hrequeue _ _ _)
  | lease | retry | extend | promote | redeliver | keep =>
    have hkept := hx _ rfl
    exact hkept

/-- Right after a nack the job is held until the delay of the nack is over. -/
theorem held_of_nack {s s' : Server × Image} {t : Turn} (h : TurnStep s t s') {req : NackRequest}
    {retryDelayMs : UInt64} {kept : Bool} {now : Int64} {r : NackOutcome}
    (hcall : t.call = .answered (.nack req retryDelayMs kept now) (.ok (.nack r)))
    (hnow : now ∈ stamps) :
    s.2.jobs req.jobId ≠ none ∧ ∀ js, s'.2.jobs req.jobId = some js →
      HeldUntil (saturatingAdd now (i64OfU64 retryDelayMs)) stamps js.place := by
  have hexp : ExplainsNack req retryDelayMs kept now r t.events := by
    have hexplained := h.explained
    rwa [hcall] at hexplained
  have htrace := h.events
  unfold ExplainsNack at hexp
  split_ifs at hexp with hdead
  · obtain ⟨queue, hevs⟩ := hexp
    rw [hevs] at htrace
    have hstep := htrace.of_single.job req.jobId
    generalize s.2.jobs req.jobId = x at hstep
    generalize s'.2.jobs req.jobId = x' at hstep
    cases hstep with
    | other he => exact absurd rfl he
    | keep => exact ⟨nofun, fun js hjs => Option.some.inj hjs ▸ .inr (.inr trivial)⟩
    | drop => exact ⟨nofun, fun js hjs => by cases hjs⟩
  · obtain ⟨-, queue, hevs⟩ := hexp
    rw [hevs] at htrace
    have hstep := htrace.of_single.job req.jobId
    generalize s.2.jobs req.jobId = x at hstep
    generalize s'.2.jobs req.jobId = x' at hstep
    cases hstep with
    | other he => exact absurd rfl he
    | retry hplace hleft delayed =>
      refine ⟨nofun, fun js hjs => ?_⟩
      obtain rfl := Option.some.inj hjs
      by_cases hdelay : 0 < retryDelayMs
      · rw [nackDelay, if_pos hdelay]
        exact .inr (.inl ⟨_, _, rfl, Int64.le_refl _⟩)
      · have hzero : retryDelayMs = 0 := UInt64.not_lt.mp hdelay |> UInt64.le_zero_iff.mp
        refine .inl ⟨now, hnow, ?_⟩
        rw [hzero, show i64OfU64 0 = 0 from rfl, saturatingAdd, Int64.toInt_zero, Int.add_zero,
          saturate_toInt]
        exact Int64.le_refl _

omit [Prost] in
/-- A time that the stamps of the past have reached is over at the next stamp. -/
theorem le_of_reached {past rest : List Call} {call : Call} {now : Int64}
    (hordered : (stampsOf (past ++ call :: rest)).Pairwise (· ≤ ·)) (hnow : call.stamp? = some now)
    (h : ∃ t ∈ stampsOf past, due ≤ t) : due ≤ now := by
  obtain ⟨t, ht, hle⟩ := h
  rw [stampsOf, List.filterMap_append, List.filterMap_cons_some hnow] at hordered
  exact Int64.le_trans hle
    ((List.pairwise_append.mp hordered).2.2 t ht now List.mem_cons_self)

/-- Without a requeue, a job of a run keeps the time that its request asked for. -/
theorem scheduledAt_of_turns {turns : List Turn} {s : Server × Image}
    (h : Trace TurnStep ({}, Image.empty) turns s) (hadm : Admissible (turns.map Turn.call))
    {job : PreparedJob} (hjob : job ∈ (turns.map Turn.call).flatMap Call.jobs)
    (hnot : ∀ call ∈ turns.map Turn.call, job.id ∉ call.requeued) {js : JobState}
    (hjs : s.2.jobs job.id = some js) : js.scheduledAt = job.req.scheduledAt := by
  refine scheduledAt_of_trace (jobs_of_trace (events_of_turns h) job.id) ?_ ?_
    (fun _ hjs' => by cases hjs') js hjs
  · intro job' t hmem hid
    exact hadm.eq_of_id_eq hjob (mem_jobs_of_insert h hmem) hid
  · intro queue key t hmem
    obtain ⟨turn, hturn, he⟩ := List.mem_flatMap.mp hmem
    exact hnot turn.call (List.mem_map_of_mem hturn)
      ((explained_of_turns h turn hturn).mem_requeued_iff.mpr ⟨queue, key, t, he⟩)

/-- After a nack a job is held until the delay of the nack is over, unless it is requeued. -/
theorem held_since_nack {before since : List Turn} {nack : Turn} {s s₁ s' : Server × Image}
    (hbefore : Trace TurnStep ({}, Image.empty) before s) (hturn : TurnStep s nack s₁)
    (hsince : Trace TurnStep s₁ since s')
    (hfresh : (enqueuedIds ((before ++ nack :: since).map Turn.call)).Nodup) {req : NackRequest}
    {retryDelayMs : UInt64} {kept : Bool} {t : Int64} {r : NackOutcome}
    (hcall : nack.call = .answered (.nack req retryDelayMs kept t) (.ok (.nack r)))
    (hnot : ∀ turn ∈ since, req.jobId ∉ turn.call.requeued) :
    ∀ js, s'.2.jobs req.jobId = some js →
      HeldUntil (saturatingAdd t (i64OfU64 retryDelayMs))
        (stampsOf ((before ++ nack :: since).map Turn.call)) js.place := by
  have hstamp : t ∈ stampsOf ((before ++ nack :: since).map Turn.call) :=
    mem_stampsOf (t := nack) (by simp) (by rw [hcall]; rfl)
  obtain ⟨hknown, hheld⟩ := held_of_nack hturn hcall hstamp
  have hexp := explained_of_turns hsince
  refine held_of_trace (jobs_of_trace (events_of_turns hsince) req.jobId) ?_ ?_ hheld
  · intro e he hborn
    obtain ⟨turn, hmem, he⟩ := List.mem_flatMap.mp he
    rcases (hexp turn hmem).births_iff.mpr ⟨e, he, hborn⟩ with hinserts | hrequeued
    · -- the id has been used before the nack
      obtain ⟨job, now, hins, hid⟩ := (hexp turn hmem).inserts_iff.mp hinserts
      have hold := knows_of_turns hbefore req.jobId hknown
      have hnew := mem_jobs_of_insert hsince (List.mem_flatMap.mpr ⟨turn, hmem, hins⟩)
      rw [enqueuedIds, List.map_append, List.flatMap_append, List.map_append] at hfresh
      refine (List.nodup_append.mp hfresh).2.2 _ hold _ ?_ rfl
      rw [← hid]
      refine List.mem_map_of_mem ?_
      rw [List.map_cons, List.flatMap_cons]
      exact List.mem_append_right _ hnew
    · exact hnot turn hmem hrequeued
  · intro queue now hmem
    obtain ⟨turn, hturn', he⟩ := List.mem_flatMap.mp hmem
    exact mem_stampsOf (by simp [hturn']) ((hexp turn hturn').stamp_of_promote he)

/-- In a run whose stamps do not go back, a job is not delivered before the time that it, or its
request, is scheduled for, and not before the delay of a nack is over, unless an operator has put
it back in line since. -/
theorem Run.never_early {past rest : List Call} {queues : List String} {leaseMs maxJobs : UInt64}
    {now : Int64} {jobs : List Job} {server : Server}
    (h : Run (past ++ .answered (.reserve queues leaseMs maxJobs now) (.ok (.reserve jobs)) :: rest)
      server)
    (hordered : (stampsOf (past ++ .answered (.reserve queues leaseMs maxJobs now)
      (.ok (.reserve jobs)) :: rest)).Pairwise (· ≤ ·))
    {job : Job} (hjob : job ∈ jobs) :
    (∀ ts, job.scheduledAt = some ts → timestampToMillis ts ≤ now) ∧
      (∀ prepared ∈ past.flatMap Call.jobs, prepared.id = job.id →
        (∀ call ∈ past, job.id ∉ call.requeued) →
          ∀ ts, prepared.req.scheduledAt = some ts → timestampToMillis ts ≤ now) ∧
      ∀ (before since : List Call) (req : NackRequest) (retryDelayMs : UInt64) (kept : Bool)
        (t : Int64) (r : NackOutcome),
        past = before ++ .answered (.nack req retryDelayMs kept t) (.ok (.nack r)) :: since →
        req.jobId = job.id → (∀ call ∈ since, job.id ∉ call.requeued) →
          saturatingAdd t (i64OfU64 retryDelayMs) ≤ now := by
  obtain ⟨turns, a, hcalls, hturns, -, -⟩ := h.exists_turns
  obtain ⟨tpast, tail, rfl, rfl, htail⟩ := List.map_eq_append_iff.mp hcalls
  obtain ⟨turn, trest, rfl, hcall, -⟩ := List.map_eq_cons_iff.mp htail
  obtain ⟨⟨mid, b⟩, hfirst, hsecond⟩ := hturns.split
  obtain ⟨s', hturn, -⟩ := hsecond.split_first
  have hdelivered : job ∈ turn.call.delivered := by rwa [hcall]
  obtain ⟨js, attempt, queues', leaseMs', maxJobs', now', jobs', -, hjs, hplace, hcopy⟩ :=
    hturn.exists_ready hdelivered
  -- a time that holds the job is over, since the job is ready
  have hreached : ∀ {due : Int64},
      HeldUntil due (stampsOf (tpast.map Turn.call)) js.place → due ≤ now := by
    intro due hheld
    rw [hplace] at hheld
    exact le_of_reached hordered rfl hheld.of_ready
  have hscheduled : ∀ ts, js.scheduledAt = some ts → timestampToMillis ts ≤ now := by
    intro ts hts
    exact hreached (scheduled_of_turns hfirst job.id js ts hjs hts)
  refine ⟨fun ts hts => hscheduled ts (by rwa [hcopy] at hts), ?_, ?_⟩
  · intro prepared hprepared hid hnot ts hts
    rw [← hid] at hnot hjs
    exact hscheduled ts ((scheduledAt_of_turns hfirst h.admissible.of_append hprepared hnot
      hjs).trans hts)
  · intro before since req retryDelayMs kept t r hsplit hid hnot
    obtain ⟨tbefore, ttail, rfl, rfl, htail'⟩ := List.map_eq_append_iff.mp hsplit
    obtain ⟨tnack, tsince, rfl, hnack, rfl⟩ := List.map_eq_cons_iff.mp htail'
    obtain ⟨s₀, hbefore, hrest⟩ := hfirst.split
    obtain ⟨s₁, hnackTurn, hsince⟩ := hrest.split_first
    rw [← hid] at hnot hjs
    exact hreached (held_since_nack hbefore hnackTurn hsince h.admissible.of_append.fresh hnack
      (fun turn hmem => hnot turn.call (List.mem_map_of_mem hmem)) js hjs)

end Runs

/-- A job for ten seconds after the epoch. -/
def laterJob : PreparedJob where
  id := "a"
  req := { queue := "emails", jobType := "send", scheduledAt := some { seconds := 10, nanos := 0 } }
  limits := { priority := 5, maxAttempts := 2, dedupWindowMs := 60000 }

/-- The job is delivered when it is due, and again after the delay of a nack. -/
def laterJobOps : List Op :=
  [.enqueue [laterJob] 1000, .sweep 10000 10 none true, .reserve ["emails"] 30000 1 10500,
    .nack { jobId := "a", attempt := 1 } 60000 true 11000, .sweep 71000 10 none true,
    .reserve ["emails"] 30000 1 71500]

open WireFormat Server in
theorem never_early_laterJob :
    ∃ job ∈ (performAll laterJobOps {}).1.flatMap Call.delivered, job.attempt = 2 ∧
      timestampToMillis { seconds := 10, nanos := 0 } ≤ 71500 ∧
      saturatingAdd 11000 (i64OfU64 60000) ≤ 71500 := by
  have hrun := Run.of_performAll (show ∀ op ∈ laterJobOps, op.WellFormed by decide) (by decide)
  have hlast : (performAll laterJobOps {}).1 = (performAll (laterJobOps.take 5) {}).1 ++
      .answered (.reserve ["emails"] 30000 1 71500) (.ok (.reserve
        (((performAll laterJobOps {}).1.drop 5).flatMap Call.delivered))) :: [] := by
    decide +kernel
  have hnack : (performAll (laterJobOps.take 5) {}).1 = (performAll (laterJobOps.take 3) {}).1 ++
      .answered (.nack { jobId := "a", attempt := 1 } 60000 true 11000) (.ok (.nack
        ⟨"emails", false, 60000, none⟩)) :: ((performAll (laterJobOps.take 5) {}).1.drop 4) := by
    decide +kernel
  have hordered : (stampsOf (performAll laterJobOps {}).1).Pairwise (· ≤ ·) := by decide +kernel
  have hjob : ∃ job ∈ ((performAll laterJobOps {}).1.drop 5).flatMap Call.delivered,
      job ∈ (performAll laterJobOps {}).1.flatMap Call.delivered ∧ job.attempt = 2 ∧
        job.id = "a" ∧ job.scheduledAt = some { seconds := 10, nanos := 0 } ∧
        ∀ call ∈ (performAll (laterJobOps.take 5) {}).1.drop 4, job.id ∉ call.requeued := by
    decide +kernel
  obtain ⟨job, hmem, hdelivered, hattempt, hid, hts, hnot⟩ := hjob
  generalize ((performAll laterJobOps {}).1.drop 5).flatMap Call.delivered = jobs at hlast hmem
  rw [hlast] at hrun hordered
  have h := Run.never_early hrun hordered hmem
  exact ⟨job, hdelivered, hattempt, h.1 _ hts, h.2.2 _ _ _ _ _ _ _ hnack hid.symm hnot⟩

/-- A job with one attempt. -/
def oneTry : PreparedJob where
  id := "a"
  req := { queue := "emails", jobType := "send" }
  limits := { priority := 5, maxAttempts := 1, dedupWindowMs := 60000 }

/-- The job is delivered and rejected with a delay of a minute. It has no attempt left, so it is
dead; an operator puts it back in line, and it is delivered again. -/
def requeuedEarly : List Op :=
  [.enqueue [oneTry] 1000, .reserve ["emails"] 30000 1 2000,
    .nack { jobId := "a", attempt := 1 } 60000 true 3000,
    .requeueDeadLetters "emails"
      [DeadLetterKey.encode { failedAt := 3000, queue := "emails", jobId := asBytes "a" }] 4000,
    .reserve ["emails"] 30000 1 5000]

open WireFormat Server in
/-- The delay of the nack does not hold a job that an operator puts back in line. -/
theorem early_after_requeue :
    Run (performAll requeuedEarly {}).1 (performAll requeuedEarly {}).2 ∧
    (stampsOf (performAll requeuedEarly {}).1).Pairwise (· ≤ ·) ∧
    (performAll requeuedEarly {}).1.map (fun call => call.delivered.map Job.id) =
      [[], ["a"], [], [], ["a"]] ∧
    (performAll requeuedEarly {}).1[2]? =
      some (.answered (.nack { jobId := "a", attempt := 1 } 60000 true 3000)
        (.ok (.nack ⟨"emails", true, 0, none⟩))) ∧
    5000 < saturatingAdd 3000 (i64OfU64 60000) := by
  refine ⟨Run.of_performAll (by decide) (by decide), ?_, ?_, ?_, ?_⟩
  · decide +kernel
  · decide +kernel
  · decide +kernel
  · decide

end Sepp
