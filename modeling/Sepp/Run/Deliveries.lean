import Mathlib.Data.List.Nodup
import Sepp.Run.Calls
import Sepp.Spec.Lifecycle

/-!
# Deliveries and births

What the callers of a run see of a job: the answers that say it was inserted or put back in line
(its births), and the reserve answers that deliver it. They are the insert, requeue and lease
events of the run.

## Main definitions

* `Call.delivered`, `Call.Births` — the deliveries and births in an answer.
* `attemptsSince` — the attempts delivered since the last birth.

## Main results

* `Call.Explained.filterMap_delivery`, `Call.Explained.births_iff` — the answers tell the events.
-/

namespace Sepp

/-! ### In the answers -/

namespace Call

/-- The jobs that the answer delivers. -/
def delivered : Call → List Job
  | answered _ (.ok (.reserve jobs)) => jobs
  | _ => []

/-- The jobs of a batch that the answer accepts. -/
def accepted : Call → List EnqueueResponse
  | answered _ (.ok (.enqueue results)) => results.filterMap Except.toOption
  | answered _ (.ok (.enqueueAtomic (.committed resps))) => resps
  | _ => []

/-- The jobs that the answer puts back in line. -/
def requeued : Call → List String
  | answered _ (.ok (.requeueDeadLetters r)) => r.jobIds
  | _ => []

/-- The answer says that the job was inserted. -/
def Inserts (id : String) (call : Call) : Prop :=
  { jobId := id, deduplicated := false } ∈ call.accepted

/-- The answer says that the job was inserted or put back in line. -/
def Births (id : String) (call : Call) : Prop := call.Inserts id ∨ id ∈ call.requeued

instance (id : String) : DecidablePred (Births id) := fun call =>
  inferInstanceAs (Decidable (_ ∈ call.accepted ∨ id ∈ call.requeued))

end Call

/-- The attempts of the deliveries of a job, in order. -/
def attemptsOf (id : String) (calls : List Call) : List UInt32 :=
  ((calls.flatMap Call.delivered).filter fun job => job.id == id).map Job.attempt

/-! ### In the events -/

namespace Event

/-- The job that the event delivers. -/
def delivery? : Event → Option Job
  | lease job _ => some job
  | _ => none

/-- The job that the event inserts or puts back in line. -/
def birth? : Event → Option String
  | insert job _ => some job.id
  | requeue id _ _ _ => some id
  | _ => none

/-- The attempt that the event delivers the job on. -/
def attemptsTo (id : String) : Event → List UInt32
  | lease job _ => if job.id = id then [job.attempt] else []
  | _ => []

end Event

/-- The attempts delivered since the last birth of the job. -/
def attemptsSince (id : String) (evs : List Event) : List UInt32 :=
  evs.foldl (fun attempts e =>
    if e.birth? = some id then [] else attempts ++ e.attemptsTo id) []

section AttemptsSince

variable {id : String} {evs evs' : List Event}

theorem attemptsSince_concat (evs : List Event) (e : Event) :
    attemptsSince id (evs ++ [e]) =
      if e.birth? = some id then [] else attemptsSince id evs ++ e.attemptsTo id := by
  rw [attemptsSince, List.foldl_append]
  rfl

/-- Without a birth the deliveries add up. -/
theorem attemptsSince_append (h : ∀ e ∈ evs', e.birth? ≠ some id) :
    attemptsSince id (evs ++ evs') = attemptsSince id evs ++ evs'.flatMap (Event.attemptsTo id) := by
  induction evs' using List.reverseRecOn with
  | nil => simp
  | append_singleton evs' e ih =>
    have hrest := ih fun e' he' => h e' (List.mem_append_left _ he')
    have he := h e (List.mem_append_right _ List.mem_cons_self)
    rw [← List.append_assoc, attemptsSince_concat, if_neg he, hrest, List.flatMap_append,
      List.append_assoc, List.flatMap_singleton]

/-- After a birth that no delivery follows, there is none. -/
theorem attemptsSince_eq_nil (hbirth : ∃ e ∈ evs', e.birth? = some id)
    (hnone : ∀ e ∈ evs', e.attemptsTo id = []) : attemptsSince id (evs ++ evs') = [] := by
  induction evs' using List.reverseRecOn with
  | nil => simp at hbirth
  | append_singleton evs' e ih =>
    rw [← List.append_assoc, attemptsSince_concat]
    split_ifs with he
    · rfl
    · obtain ⟨e', he', hborn⟩ := hbirth
      rcases List.mem_append.mp he' with he' | he'
      · rw [ih ⟨e', he', hborn⟩ fun e he => hnone e (List.mem_append_left _ he),
          hnone e (List.mem_append_right _ List.mem_cons_self), List.append_nil]
      · exact absurd (List.mem_singleton.mp he' ▸ hborn) he

end AttemptsSince

/-! ### The answers tell the events -/

/-- Only a reserve delivers jobs. -/
theorem Op.Makes.delivery {op : Op} {e : Event} (h : op.Makes e)
    (hop : ∀ queues leaseMs maxJobs now, op ≠ .reserve queues leaseMs maxJobs now) :
    e.delivery? = none := by
  cases e with
  | lease =>
    obtain ⟨queues, leaseMs, maxJobs, now, rfl, -⟩ := h.of_lease
    exact absurd rfl (hop queues leaseMs maxJobs now)
  | _ => rfl

/-- The deliveries of an answer are the lease events behind it. -/
theorem Call.Explained.filterMap_delivery {call : Call} {evs : List Event}
    (h : call.Explained evs) : evs.filterMap Event.delivery? = call.delivered := by
  cases call with
  | restart =>
    rw [show evs = [] from h]
    rfl
  | answered op result =>
    cases result with
    | error e =>
      rw [show evs = [] from h]
      rfl
    | ok r =>
      by_cases hop : ∃ queues leaseMs maxJobs now, op = .reserve queues leaseMs maxJobs now
      · obtain ⟨queues, leaseMs, maxJobs, now, rfl⟩ := hop
        cases r with
        | reserve jobs =>
          rw [show evs = _ from h, List.filterMap_map]
          exact List.filterMap_some
        | _ => exact h.elim
      · have hnone : evs.filterMap Event.delivery? = [] := by
          rw [List.filterMap_eq_nil_iff]
          intro e he
          exact (Explains.makes h he).delivery fun queues leaseMs maxJobs now hreserve =>
            hop ⟨queues, leaseMs, maxJobs, now, hreserve⟩
        rw [hnone]
        cases r with
        | reserve jobs =>
          cases op with
          | reserve => exact absurd ⟨_, _, _, _, rfl⟩ hop
          | _ => exact h.elim
        | _ => rfl

theorem Accepts.eq_of_insert {now now' : Int64} {job job' : PreparedJob} {resp : EnqueueResponse}
    {evs : List Event} (h : Accepts now job resp evs) (hmem : .insert job' now' ∈ evs) :
    resp = { jobId := job'.id, deduplicated := false } := by
  rcases h with ⟨hresp, rfl⟩ | ⟨-, rfl⟩
  · obtain ⟨rfl, -⟩ := Event.insert.inj (List.mem_singleton.mp hmem)
    exact hresp
  · cases List.mem_singleton.mp hmem

theorem Accepts.exists_insert {now : Int64} {job : PreparedJob} {id : String} {evs : List Event}
    (h : Accepts now job { jobId := id, deduplicated := false } evs) :
    job.id = id ∧ .insert job now ∈ evs := by
  rcases h with ⟨hresp, rfl⟩ | ⟨hdup, -⟩
  · exact ⟨(EnqueueResponse.mk.inj hresp).1.symm, List.mem_singleton.mpr rfl⟩
  · cases hdup

/-- The answers about insertions are the insert events. -/
theorem Call.Explained.inserts_iff {call : Call} {evs : List Event} {id : String}
    (h : call.Explained evs) :
    call.Inserts id ↔ ∃ job now, .insert job now ∈ evs ∧ job.id = id := by
  constructor
  · intro hins
    unfold Call.Inserts Call.accepted at hins
    split at hins
    · rename_i op results
      cases op with
      | enqueue jobs now =>
        obtain ⟨r, hr, hresp⟩ := List.mem_filterMap.mp hins
        obtain ⟨job, -, group, hanswer, hsub⟩ := Grouped.exists_group h hr
        cases r with
        | ok resp =>
          obtain rfl := Option.some.inj hresp
          obtain ⟨hid, hmem⟩ := Accepts.exists_insert hanswer
          exact ⟨job, now, hsub _ hmem, hid⟩
        | error => cases hresp
      | _ => exact h.elim
    · rename_i op resps
      cases op with
      | enqueueAtomic jobs now =>
        obtain ⟨job, -, group, haccept, hsub⟩ := Grouped.exists_group h hins
        obtain ⟨hid, hmem⟩ := Accepts.exists_insert haccept
        exact ⟨job, now, hsub _ hmem, hid⟩
      | _ => exact h.elim
    · cases hins
  · rintro ⟨job, now, hmem, rfl⟩
    obtain ⟨op, r, rfl, hmakes⟩ := h.exists_op hmem
    obtain ⟨jobs, rfl | rfl, -⟩ := hmakes.of_insert
    · cases r with
      | enqueue results =>
        obtain ⟨job', -, r, hr, group, hanswer, hgroup⟩ := Grouped.exists_turn h hmem
        cases r with
        | ok resp =>
          rw [Accepts.eq_of_insert hanswer hgroup] at hr
          exact List.mem_filterMap.mpr ⟨_, hr, rfl⟩
        | error rejection =>
          cases rejection with
          | queueFull | queueClosing =>
            rw [show group = _ from hanswer] at hgroup
            cases List.mem_singleton.mp hgroup
      | _ => exact h.elim
    · cases r with
      | enqueueAtomic outcome =>
        cases outcome with
        | committed resps =>
          obtain ⟨job', -, resp, hr, group, haccept, hgroup⟩ := Grouped.exists_turn h hmem
          change EnqueueResponse.mk _ _ ∈ resps
          rwa [← Accepts.eq_of_insert haccept hgroup]
        | rejected errors =>
          rw [show evs = [] from h] at hmem
          cases hmem
      | _ => exact h.elim

/-- The answers about jobs put back in line are the requeue events. -/
theorem Call.Explained.mem_requeued_iff {call : Call} {evs : List Event} {id : String}
    (h : call.Explained evs) :
    id ∈ call.requeued ↔ ∃ queue key now, .requeue id queue key now ∈ evs := by
  have hids : ∀ {queue keys now r}, Explains (.requeueDeadLetters queue keys now)
      (.requeueDeadLetters r) evs → (id ∈ r.jobIds ↔ ∃ key, .requeue id queue key now ∈ evs) := by
    rintro queue keys now r ⟨hmap, hall⟩
    have hmem : id ∈ r.jobIds ↔ some id ∈ evs.map Event.jobId? := by
      rw [hmap, List.mem_map_of_injective (Option.some_injective _)]
    rw [hmem, List.mem_map]
    constructor
    · rintro ⟨e, he, hid⟩
      obtain ⟨id', key, -, rfl⟩ := hall e he
      obtain rfl := Option.some.inj hid
      exact ⟨key, he⟩
    · rintro ⟨key, he⟩
      exact ⟨_, he, rfl⟩
  constructor
  · intro hreq
    unfold Call.requeued at hreq
    split at hreq
    · rename_i op r
      cases op with
      | requeueDeadLetters queue keys now =>
        obtain ⟨key, hmem⟩ := (hids h).mp hreq
        exact ⟨queue, key, now, hmem⟩
      | _ => exact h.elim
    · cases hreq
  · rintro ⟨queue, key, now, hmem⟩
    obtain ⟨op, r, rfl, hmakes⟩ := h.exists_op hmem
    obtain ⟨keys, rfl, -⟩ := hmakes.of_requeue
    cases r with
    | requeueDeadLetters r => exact (hids h).mpr ⟨key, hmem⟩
    | _ => exact h.elim

/-- The births in the answers are those in the events. -/
theorem Call.Explained.births_iff {call : Call} {evs : List Event} {id : String}
    (h : call.Explained evs) : call.Births id ↔ ∃ e ∈ evs, e.birth? = some id := by
  rw [Call.Births, h.inserts_iff, h.mem_requeued_iff]
  constructor
  · rintro (⟨job, now, hmem, rfl⟩ | ⟨queue, key, now, hmem⟩)
    · exact ⟨_, hmem, rfl⟩
    · exact ⟨_, hmem, rfl⟩
  · rintro ⟨e, hmem, hbirth⟩
    cases e with
    | insert job now => exact .inl ⟨job, now, hmem, Option.some.inj hbirth⟩
    | requeue id' queue key now =>
      obtain rfl := Option.some.inj hbirth
      exact .inr ⟨queue, key, now, hmem⟩
    | _ => cases hbirth

/-! ### Runs -/

section Runs

variable [Prost] {id : String} {turns : List Turn} {s s' : Server × Image}

omit [Prost] in
theorem flatMap_attemptsTo (id : String) (evs : List Event) :
    evs.flatMap (Event.attemptsTo id) =
      ((evs.filterMap Event.delivery?).filter fun job => job.id == id).map Job.attempt := by
  induction evs with
  | nil => rfl
  | cons e evs ih =>
    rw [List.flatMap_cons, ih]
    cases e with
    | lease job expires =>
      by_cases hid : job.id = id <;> simp [Event.attemptsTo, Event.delivery?, hid]
    | _ => rfl

omit [Prost] in
/-- The deliveries in the events are those in the answers. -/
theorem flatMap_attemptsTo_turns (h : ∀ t ∈ turns, t.call.Explained t.events) :
    (turns.flatMap Turn.events).flatMap (Event.attemptsTo id) =
      attemptsOf id (turns.map Turn.call) := by
  rw [flatMap_attemptsTo, attemptsOf, List.flatMap_map, List.filterMap_flatMap]
  congr 2
  refine List.flatMap_congr fun t ht => ?_
  exact (h t ht).filterMap_delivery

omit [Prost] in
/-- An answer about a birth delivers nothing. -/
theorem Call.Births.delivered_eq {call : Call} (h : call.Births id) : call.delivered = [] := by
  unfold Call.delivered
  split
  · rcases h with h | h <;> cases h
  · rfl

/-- The attempts since the last birth, in the events and in the answers. -/
theorem attemptsSince_of_turns {turns' : List Turn} {birth : Turn}
    (h : Trace TurnStep s (turns ++ birth :: turns') s') (hbirth : birth.call.Births id)
    (hlast : ∀ t ∈ turns', ¬ t.call.Births id) :
    attemptsSince id ((turns ++ birth :: turns').flatMap Turn.events) =
      attemptsOf id (turns'.map Turn.call) := by
  have hexp := explained_of_turns h
  have hexp' : ∀ t ∈ turns', t.call.Explained t.events := fun t ht => hexp t (by simp [ht])
  have hborn : birth.call.Explained birth.events := hexp birth (by simp)
  have hnil : attemptsSince id (turns.flatMap Turn.events ++ birth.events) = [] := by
    refine attemptsSince_eq_nil (hborn.births_iff.mp hbirth) ?_
    rw [← List.flatMap_eq_nil_iff, flatMap_attemptsTo, hborn.filterMap_delivery,
      hbirth.delivered_eq]
    rfl
  rw [List.flatMap_append, List.flatMap_cons, ← List.append_assoc, attemptsSince_append, hnil,
    List.nil_append, flatMap_attemptsTo_turns hexp']
  intro e he hborn'
  obtain ⟨t, ht, het⟩ := List.mem_flatMap.mp he
  exact hlast t ht ((hexp' t ht).births_iff.mpr ⟨e, het, hborn'⟩)

/-- Leases leave a job that is still ready alone. -/
theorem eq_of_leases {x x' : Option JobState} {evs : List Event} {js : JobState} {attempt : UInt32}
    (h : Trace (JobStep id) x evs x') (hevs : ∀ e ∈ evs, ∃ job expires, e = .lease job expires)
    (hx' : x' = some js) (hplace : js.place = .ready attempt) : x = some js := by
  have hcases : x' = x ∨ ∃ js n expires, x' = some js ∧ js.place = .leased n expires := by
    refine h.preserves (P := fun y => y = x ∨ ∃ js n expires, y = some js ∧
      js.place = .leased n expires) (fun y e y' he hstep hy => ?_) (.inl rfl)
    obtain ⟨job, expires, rfl⟩ := hevs e he
    cases hstep with
    | other => exact hy
    | lease => exact .inr ⟨_, _, _, rfl, rfl⟩
  rcases hcases with rfl | ⟨js', n, expires, hjs', hleased⟩
  · exact hx'
  · obtain rfl := Option.some.inj (hx'.symm.trans hjs')
    cases hplace.symm.trans hleased

/-- A job that a call delivers was ready, and is delivered as it was, on the attempt it waited
for. -/
theorem TurnStep.exists_ready {t : Turn} (h : TurnStep s t s') {job : Job}
    (hjob : job ∈ t.call.delivered) :
    ∃ js attempt queues leaseMs maxJobs now jobs,
      t.call = .answered (.reserve queues leaseMs maxJobs now) (.ok (.reserve jobs)) ∧
      s.2.jobs job.id = some js ∧ js.place = .ready attempt ∧
      job = js.deliveredJob job.id attempt (saturatingAdd now (i64OfU64 leaseMs)) := by
  obtain ⟨call, evs⟩ := t
  have hexp : call.Explained evs := h.explained
  change job ∈ call.delivered at hjob
  unfold Call.delivered at hjob
  split at hjob
  swap
  · cases hjob
  rename_i op jobs
  cases op with
  | reserve queues leaseMs maxJobs now =>
    have hevs : evs = jobs.map (Event.lease · (saturatingAdd now (i64OfU64 leaseMs))) := hexp
    obtain ⟨jobs₁, jobs₂, rfl⟩ := List.append_of_mem hjob
    have htrace : Trace Step s.2 evs s'.2 := h.events
    rw [hevs, List.map_append, List.map_cons] at htrace
    obtain ⟨b, hbefore, hafter⟩ := htrace.split
    cases hafter with
    | cons hstep _ =>
      generalize hlease : Event.lease job (saturatingAdd now (i64OfU64 leaseMs)) = e at hstep
      cases hstep with
      | @lease id js attempt expires hjs hplace =>
        obtain ⟨rfl, rfl⟩ := Event.lease.inj hlease
        refine ⟨js, attempt, queues, leaseMs, maxJobs, now, _, rfl, ?_, hplace, rfl⟩
        refine eq_of_leases (jobs_of_trace hbefore id) (fun e he => ?_) hjs hplace
        obtain ⟨job', -, rfl⟩ := List.mem_map.mp he
        exact ⟨job', _, rfl⟩
      | _ => cases hlease
  | _ => exact hexp.elim

omit [Prost] in
/-- One prepared job goes with an id. -/
theorem Admissible.eq_of_id_eq {calls : List Call} (h : Admissible calls) {job job' : PreparedJob}
    (hjob : job ∈ calls.flatMap Call.jobs) (hjob' : job' ∈ calls.flatMap Call.jobs)
    (hid : job'.id = job.id) : job' = job :=
  List.inj_on_of_nodup_map h.fresh hjob' hjob hid

/-- The jobs inserted in a run are jobs that its calls ask to enqueue. -/
theorem mem_jobs_of_insert (h : Trace TurnStep s turns s') {job : PreparedJob} {now : Int64}
    (he : .insert job now ∈ turns.flatMap Turn.events) :
    job ∈ (turns.map Turn.call).flatMap Call.jobs := by
  obtain ⟨t, ht, het⟩ := List.mem_flatMap.mp he
  obtain ⟨op, r, hcall, hmakes⟩ := (explained_of_turns h t ht).exists_op het
  refine List.mem_flatMap.mpr ⟨t.call, List.mem_map_of_mem ht, ?_⟩
  rw [hcall]
  exact hmakes.mem_jobs

end Runs

end Sepp
