import Sepp.Run.Deliveries
import Sepp.Wire.Codec

/-!
# A job for an idempotency key is inserted once

An idempotency key of a queue answers for the job that was inserted for it, until its window ends:
whatever happens to the job itself, and whatever windows later requests carry. The calls of a run
are taken apart into the jobs they ask for, in the order they are answered, so that two jobs of one
batch are treated like those of two batches.

## Main definitions

* `Moment`, `momentsOf` — the jobs that a run asks for, one after the other, and its other calls.
* `MomentStep` — what a moment does to the abstract state.

## Main results

* `Run.exists_moments` — a run is a run of its moments.
* `Run.enqueue_once`.
-/

namespace Sepp

/-! ### Moments -/

/-- A job that is asked for, with its own answer or, if its batch was turned away as a whole,
without one; or another call. -/
inductive Moment where
  | ask (job : PreparedJob) (now : Int64) (answer : Option EnqueueResult)
  | other (call : Call)
deriving DecidableEq

/-- The moments of a call. -/
def Call.moments : Call → List Moment
  | answered (.enqueue jobs now) (.ok (.enqueue results)) =>
    List.zipWith (fun job r => .ask job now (some r)) jobs results
  | answered (.enqueueAtomic jobs now) (.ok (.enqueueAtomic (.committed resps))) =>
    List.zipWith (fun job resp => .ask job now (some (.ok resp))) jobs resps
  | answered (.enqueue jobs now) _ | answered (.enqueueAtomic jobs now) _ =>
    jobs.map fun job => .ask job now none
  | call => [.other call]

/-- The moments of calls, in order. -/
def momentsOf (calls : List Call) : List Moment := calls.flatMap Call.moments

namespace Moment

/-- The stamp of the moment, if it has one. -/
def stamp? : Moment → Option Int64
  | ask _ now _ => some now
  | other call => call.stamp?

/-- The job that is asked for. -/
def job? : Moment → Option PreparedJob
  | ask job _ _ => some job
  | other _ => none

/-- The job is asked for and inserted. -/
def insertion (job : PreparedJob) (now : Int64) : Moment :=
  ask job now (some (.ok { jobId := job.id, deduplicated := false }))

/-- A chunk of the queue is purged. -/
def Purges (queue : String) (m : Moment) : Prop :=
  ∃ limit r, m = other (.answered (.purgeQueueChunk queue limit) (.ok r))

end Moment

section Steps

variable [Prost]

/-- What a moment does to the abstract state. -/
def MomentStep (a : Image) : Moment → Image → Prop
  | .ask job now (some r), a' => ∃ evs, Answers now job r evs ∧ Trace Step a evs a'
  | .ask _ _ none, a' => a' = a
  | .other call, a' => call.jobs = [] ∧ ∃ evs, call.Explained evs ∧ Trace Step a evs a'

variable {a a' : Image} {call : Call} {evs : List Event}

/-- A batch is a run of its jobs. -/
theorem exists_asks {now : Int64} {β : Type} {P : PreparedJob → β → List Event → Prop}
    {f : β → EnqueueResult} (hP : ∀ job r evs, P job r evs → Answers now job (f r) evs)
    {jobs : List PreparedJob} {rs : List β} (hgrouped : Grouped P jobs rs evs)
    (htrace : Trace Step a evs a') :
    Trace MomentStep a (List.zipWith (fun job r => .ask job now (some (f r))) jobs rs) a' := by
  induction hgrouped generalizing a with
  | nil =>
    cases htrace
    exact Trace.nil _
  | cons hturn _ ih =>
    obtain ⟨b, hfirst, hrest⟩ := htrace.split
    exact .cons ⟨_, hP _ _ _ hturn, hfirst⟩ (ih hrest)

/-- A batch that was turned away changes nothing. -/
theorem exists_refused (a : Image) (jobs : List PreparedJob) (now : Int64) :
    Trace MomentStep a (jobs.map fun job => .ask job now none) a := by
  induction jobs with
  | nil => exact Trace.nil a
  | cons job jobs ih => exact .cons (show a = a from rfl) ih

/-- A call is a run of its moments. -/
theorem Call.Explained.moments (h : call.Explained evs) (htrace : Trace Step a evs a') :
    Trace MomentStep a call.moments a' := by
  have hrefused : ∀ (jobs : List PreparedJob) (now : Int64), evs = [] →
      Trace MomentStep a (jobs.map fun job => .ask job now none) a' := by
    rintro jobs now rfl
    cases htrace
    exact exists_refused a jobs now
  unfold Call.moments
  split
  · exact exists_asks (fun _ _ _ h => h) h htrace
  · exact exists_asks (f := .ok) (fun _ _ _ h => h) h htrace
  · rename_i jobs now result hne
    cases result with
    | error e => exact hrefused jobs now h
    | ok r =>
      cases r with
      | enqueue results => exact absurd rfl (hne results)
      | _ => exact h.elim
  · rename_i jobs now result hne
    cases result with
    | error e => exact hrefused jobs now h
    | ok r =>
      cases r with
      | enqueueAtomic outcome =>
        cases outcome with
        | committed resps => exact absurd rfl (hne resps)
        | rejected errors => exact hrefused jobs now h
      | _ => exact h.elim
  · rename_i hbatch hatomic
    refine .single ⟨?_, evs, h, htrace⟩
    cases call with
    | restart => rfl
    | answered op result =>
      cases op with
      | enqueue jobs now => exact absurd rfl (hbatch jobs now result)
      | enqueueAtomic jobs now => exact absurd rfl (hatomic jobs now result)
      | _ => rfl

/-- A run is a run of its moments. -/
theorem moments_of_turns {turns : List Turn} {s s' : Server × Image}
    (h : Trace TurnStep s turns s') :
    Trace MomentStep s.2 (momentsOf (turns.map Turn.call)) s'.2 := by
  induction h with
  | nil => exact Trace.nil _
  | cons hturn _ ih => exact (hturn.explained.moments hturn.events).append ih

end Steps

/-! ### Records -/

section Records

variable [Prost] {a a' : Image} {m : Moment} {name : DedupName} {d : DedupState}

/-- The name of the key that a job carries. -/
def PreparedJob.Names (job : PreparedJob) (name : DedupName) : Prop :=
  job.req.queue = name.1 ∧ job.req.idempotencyKey = some name.2

/-- A record changes when its key is inserted anew, after its window, and when it is removed: after
its window, or by a purge. -/
theorem Step.dedup_cases {e : Event} (h : Step a e a') (name : DedupName) :
    a'.dedup name = a.dedup name ∨
    (∃ job now, e = .insert job now ∧ job.Names name ∧ a'.dedup name = some (job.record now) ∧
      ∀ d, a.dedup name = some d → ¬ d.Live now) ∨
    a'.dedup name = none ∧ ∃ d, a.dedup name = some d ∧
      ((∃ now, e = .forget name now ∧ ¬ d.Live now) ∨ e = .purgeDedup name) := by
  cases h with
  | @insert job now hq hnew hunseen =>
    unfold Image.rememberJob
    split
    · rename_i key hkey
      by_cases hname : name = (⟨job.req.queue, hq⟩, key)
      · subst hname
        refine .inr (.inl ⟨job, now, rfl, ⟨rfl, hkey⟩, Function.update_self .., fun d hd => ?_⟩)
        exact hunseen key d hkey hd
      · exact .inl (Function.update_of_ne hname ..)
    · exact .inl rfl
  | @forget name' d now hd hdue =>
    by_cases hname : name = name'
    · subst hname
      exact .inr (.inr ⟨Function.update_self .., d, hd, .inl ⟨now, rfl, hdue⟩⟩)
    · exact .inl (Function.update_of_ne hname ..)
  | @purgeDedup name' d hd =>
    by_cases hname : name = name'
    · subst hname
      exact .inr (.inr ⟨Function.update_self .., d, hd, .inr rfl⟩)
    · exact .inl (Function.update_of_ne hname ..)
  | hit | full | closed | lease | ack | retry | extend | promote | redeliver | bury | requeue
  | discard | purge | close | reopen | lapse | append => exact .inl rfl

omit [Prost] in
theorem Op.Makes.of_forget {op : Op} {now : Int64} (h : op.Makes (.forget name now)) :
    op.nowMs? = some now := by
  cases op with
  | sweep =>
    cases h
    rfl
  | _ => simp [Op.Makes, PurgesQueue, Event.AnswersJob] at h

omit [Prost] in
theorem Op.Makes.of_purgeDedup {op : Op} (h : op.Makes (.purgeDedup name)) :
    ∃ limit, op = .purgeQueueChunk name.1 limit := by
  cases op with
  | purgeQueueChunk queue limit =>
    rcases h with ⟨_, h⟩ | ⟨_, _, _, h⟩ | ⟨name', rfl, h⟩
    · cases h
    · cases h
    · obtain rfl := Event.purgeDedup.inj h
      exact ⟨limit, rfl⟩
  | sweep => cases h
  | _ => simp [Op.Makes, Event.AnswersJob] at h

/-- An answer is one event. -/
theorem MomentStep.ask_cases {job : PreparedJob} {now : Int64} {r : EnqueueResult}
    (h : MomentStep a (.ask job now (some r)) a') :
    (r = .ok { jobId := job.id, deduplicated := false } ∧ Step a (.insert job now) a') ∨
    (∃ jobId, r = .ok { jobId, deduplicated := true } ∧ Step a (.hit job now jobId) a') ∨
    (∃ queue cap, r = .error (.queueFull queue cap) ∧ Step a (.full job now) a') ∨
    ∃ queue, r = .error (.queueClosing queue) ∧ Step a (.closed job now) a' := by
  obtain ⟨evs, hanswers, htrace⟩ := h
  have hone : ∀ {e}, evs = [e] → Step a e a' := by
    rintro e rfl
    exact htrace.of_single
  unfold Answers at hanswers
  split at hanswers
  · rename_i resp
    rcases hanswers with ⟨rfl, hevs⟩ | ⟨hhit, hevs⟩
    · exact .inl ⟨rfl, hone hevs⟩
    · obtain ⟨jobId, deduplicated⟩ := resp
      obtain rfl : deduplicated = true := hhit
      exact .inr (.inl ⟨jobId, rfl, hone hevs⟩)
  · exact .inr (.inr (.inl ⟨_, _, rfl, hone hanswers⟩))
  · exact .inr (.inr (.inr ⟨_, rfl, hone hanswers⟩))

/-- The same for a moment. -/
theorem MomentStep.dedup_cases (h : MomentStep a m a') (name : DedupName) :
    a'.dedup name = a.dedup name ∨
    (∃ job now, m = .insertion job now ∧ job.Names name ∧ a'.dedup name = some (job.record now) ∧
      ∀ d, a.dedup name = some d → ¬ d.Live now) ∨
    a'.dedup name = none ∧ ((∃ d now, a.dedup name = some d ∧ m.stamp? = some now ∧ ¬ d.Live now) ∨
      m.Purges name.1) := by
  cases m with
  | ask job now answer =>
    cases answer with
    | none =>
      obtain rfl : a' = a := h
      exact .inl rfl
    | some r =>
      rcases MomentStep.ask_cases h with ⟨rfl, hstep⟩ | ⟨_, -, hstep⟩ | ⟨_, _, -, hstep⟩ |
        ⟨_, -, hstep⟩
      · rcases hstep.dedup_cases name with hsame | ⟨job', now', heq, hrest⟩ | ⟨-, d, -, hwhy⟩
        · exact .inl hsame
        · obtain ⟨rfl, rfl⟩ := Event.insert.inj heq
          exact .inr (.inl ⟨job, now, rfl, hrest⟩)
        · rcases hwhy with ⟨now', heq, -⟩ | heq <;> cases heq
      all_goals exact .inl (by rw [hstep.eq_of_silent rfl])
  | other call =>
    obtain ⟨hjobs, evs, hexp, htrace⟩ := h
    refine (htrace.preserves (P := fun b => b.dedup name = a.dedup name ∨ b.dedup name = none ∧
      ((∃ d now, a.dedup name = some d ∧ call.stamp? = some now ∧ ¬ d.Live now) ∨
        (Moment.other call).Purges name.1)) (fun b e b' he hstep hb => ?_) (.inl rfl)).imp_right
      .inr
    obtain ⟨op, r, rfl, hmakes⟩ := hexp.exists_op he
    rcases hstep.dedup_cases name with hsame | ⟨job, now, rfl, -⟩ | ⟨hnone, d, hd, hwhy⟩
    · rwa [hsame]
    · have hmem := hmakes.mem_jobs
      rw [show op.jobs = [] from hjobs] at hmem
      cases hmem
    · rcases hb with hb | ⟨hb, -⟩
      · refine .inr ⟨hnone, ?_⟩
        rcases hwhy with ⟨now, rfl, hdue⟩ | rfl
        · exact .inl ⟨d, now, hb ▸ hd, hmakes.of_forget, hdue⟩
        · obtain ⟨limit, rfl⟩ := hmakes.of_purgeDedup
          exact .inr ⟨limit, r, rfl⟩
      · cases hb.symm.trans hd

/-- A job that is inserted leaves the record of its key. -/
theorem MomentStep.exists_record {job : PreparedJob} {now : Int64} {jobId key : String}
    (h : MomentStep a (.ask job now (some (.ok { jobId, deduplicated := false }))) a')
    (hkey : job.req.idempotencyKey = some key) :
    jobId = job.id ∧
      ∃ hq, a'.dedup (⟨job.req.queue, hq⟩, key) = some (job.record now) := by
  rcases h.ask_cases with ⟨heq, hstep⟩ | ⟨_, heq, -⟩ | ⟨_, _, heq, -⟩ | ⟨_, heq, -⟩
  · cases hstep with
    | insert hq =>
      refine ⟨congrArg EnqueueResponse.jobId (Except.ok.inj heq), hq, ?_⟩
      rw [Image.rememberJob, hkey]
      exact Function.update_self ..
  all_goals cases heq

/-- A job whose key has a record that still answers is answered by it, or the queue is closing. -/
theorem MomentStep.answer_of_record {job : PreparedJob} {now : Int64} {r : EnqueueResult}
    (h : MomentStep a (.ask job now (some r)) a') (hnames : job.Names name)
    (hd : a.dedup name = some d) (hlive : d.Live now) :
    (∃ queue, r = .error (.queueClosing queue)) ∨
      r = .ok { jobId := d.jobId, deduplicated := true } := by
  have hname : ∀ hq, ((⟨job.req.queue, hq⟩, name.2) : DedupName) = name := fun hq =>
    Prod.ext (Subtype.ext hnames.1) rfl
  have hseen : ∀ hq, ¬ a.Unseen job hq now := fun hq hunseen =>
    hunseen name.2 d hnames.2 ((hname hq).symm ▸ hd) hlive
  rcases h.ask_cases with ⟨rfl, hstep⟩ | ⟨jobId, rfl, hstep⟩ | ⟨_, _, rfl, hstep⟩ | ⟨_, rfl, -⟩
  · cases hstep with
    | insert hq _ hunseen => exact absurd hunseen (hseen hq)
  · cases hstep with
    | hit hq hkey hd' =>
      obtain rfl := Option.some.inj (hnames.2.symm.trans hkey)
      rw [hname hq] at hd'
      obtain rfl := Option.some.inj (hd.symm.trans hd')
      exact .inr rfl
  · cases hstep with
    | full hq hunseen => exact absurd hunseen (hseen hq)
  · exact .inl ⟨_, rfl⟩

/-- A job that is answered by another has a key, with a record that still answers. -/
theorem MomentStep.exists_hit {job : PreparedJob} {now : Int64} {jobId : String}
    (h : MomentStep a (.ask job now (some (.ok { jobId, deduplicated := true }))) a') :
    ∃ name d, job.Names name ∧ a.dedup name = some d ∧ d.Live now ∧ d.jobId = jobId := by
  rcases h.ask_cases with ⟨heq, -⟩ | ⟨jobId', heq, hstep⟩ | ⟨_, _, heq, -⟩ | ⟨_, heq, -⟩
  · cases heq
  · obtain rfl := congrArg EnqueueResponse.jobId (Except.ok.inj heq)
    cases hstep with
    | hit hq hkey hd hlive => exact ⟨_, _, ⟨rfl, hkey⟩, hd, hlive, rfl⟩
  all_goals cases heq

/-- The record that answers a job is that of its name. -/
theorem MomentStep.exists_live {job : PreparedJob} {now : Int64} {jobId : String}
    (h : MomentStep a (.ask job now (some (.ok { jobId, deduplicated := true }))) a')
    (hnames : job.Names name) : ∃ d, a.dedup name = some d ∧ d.Live now ∧ d.jobId = jobId := by
  obtain ⟨name', d, hnames', hd, hrest⟩ := h.exists_hit
  obtain rfl : name' = name :=
    Prod.ext (Subtype.ext (hnames'.1.symm.trans hnames.1))
      (Option.some.inj (hnames'.2.symm.trans hnames.2))
  exact ⟨d, hd, hrest⟩

/-- An accepted job is inserted or answered by another. -/
theorem MomentStep.accepted {job : PreparedJob} {now : Int64} {resp : EnqueueResponse}
    (h : MomentStep a (.ask job now (some (.ok resp))) a') :
    resp = { jobId := job.id, deduplicated := false } ∨
      ∃ jobId, resp = { jobId, deduplicated := true } := by
  rcases h.ask_cases with ⟨heq, -⟩ | ⟨jobId, heq, -⟩ | ⟨_, _, heq, -⟩ | ⟨_, heq, -⟩
  · exact .inl (Except.ok.inj heq)
  · exact .inr ⟨jobId, Except.ok.inj heq⟩
  all_goals cases heq

/-- A record stays while its window lasts and its queue is not purged. -/
theorem dedup_of_moments {ms : List Moment} (h : Trace MomentStep a ms a')
    (hd : a.dedup name = some d)
    (hlive : ∀ m ∈ ms, ∀ now, m.stamp? = some now → d.Live now)
    (hpurge : ∀ m ∈ ms, ¬ m.Purges name.1) : a'.dedup name = some d := by
  refine h.preserves (P := fun b => b.dedup name = some d) (fun b m b' hm hstep hb => ?_) hd
  rcases hstep.dedup_cases name with hsame | ⟨job, now, rfl, -, -, hdue⟩ | ⟨-, hwhy⟩
  · rw [hsame, hb]
  · exact absurd (hlive _ hm now rfl) (hdue d hb)
  · rcases hwhy with ⟨d', now, hd', hnow, hdue⟩ | hpurges
    · obtain rfl := Option.some.inj (hb.symm.trans hd')
      exact absurd (hlive m hm now hnow) hdue
    · exact absurd hpurges (hpurge m hm)

/-- Without another insertion for its key, a record is there as it was or not at all. -/
theorem dedup_of_no_insertion {ms : List Moment} (h : Trace MomentStep a ms a')
    (hd : a.dedup name = some d)
    (hnone : ∀ job now, .insertion job now ∈ ms → ¬ job.Names name) :
    a'.dedup name = some d ∨ a'.dedup name = none := by
  refine h.preserves (P := fun b => b.dedup name = some d ∨ b.dedup name = none)
    (fun b m b' hm hstep hb => ?_) (.inl hd)
  rcases hstep.dedup_cases name with hsame | ⟨job, now, rfl, hnames, -⟩ | ⟨hgone, -⟩
  · rwa [hsame]
  · exact absurd hnames (hnone job now hm)
  · exact .inr hgone

/-- Every record is that of a job that was inserted for its key. -/
theorem insertion_of_dedup {ms : List Moment} (h : Trace MomentStep Image.empty ms a)
    (hd : a.dedup name = some d) :
    ∃ job now, .insertion job now ∈ ms ∧ job.Names name ∧ d = job.record now := by
  refine Trace.history (P := fun ms a => ∀ d, a.dedup name = some d → ∃ job now,
    .insertion job now ∈ ms ∧ job.Names name ∧ d = job.record now) (fun d hd => by cases hd)
    (fun ms m b b' _ ih hstep d hd => ?_) h d hd
  rcases hstep.dedup_cases name with hsame | ⟨job, now, rfl, hnames, hrecord, -⟩ | ⟨hgone, -⟩
  · obtain ⟨job, now, hmem, hrest⟩ := ih d (hsame ▸ hd)
    exact ⟨job, now, List.mem_append_left _ hmem, hrest⟩
  · exact ⟨job, now, List.mem_append_right _ (List.mem_singleton_self _), hnames,
      Option.some.inj (hd.symm.trans hrecord)⟩
  · cases hgone.symm.trans hd

theorem MomentStep.jobs_ne_none (h : MomentStep a m a') {id : String} (hid : a'.jobs id ≠ none) :
    a.jobs id ≠ none ∨ ∃ job now, m = .insertion job now ∧ job.id = id := by
  cases m with
  | ask job now answer =>
    cases answer with
    | none =>
      obtain rfl : a' = a := h
      exact .inl hid
    | some r =>
      rcases MomentStep.ask_cases h with ⟨rfl, hstep⟩ | ⟨_, -, hstep⟩ | ⟨_, _, -, hstep⟩ |
        ⟨_, -, hstep⟩
      · refine (hstep.jobs_ne_none hid).imp_right ?_
        rintro ⟨job', now', heq, rfl⟩
        obtain ⟨rfl, rfl⟩ := Event.insert.inj heq
        exact ⟨job, now, rfl, rfl⟩
      all_goals exact .inl (hstep.eq_of_silent rfl ▸ hid)
  | other call =>
    obtain ⟨hjobs, evs, hexp, htrace⟩ := h
    refine .inl (htrace.preserves (P := fun b => b.jobs id ≠ none → a.jobs id ≠ none)
      (fun b e b' he hstep hb hid' => ?_) (fun hid => hid) hid)
    rcases hstep.jobs_ne_none hid' with hid' | ⟨job, now, rfl, rfl⟩
    · exact hb hid'
    · obtain ⟨op, r, rfl, hmakes⟩ := hexp.exists_op he
      have hmem := hmakes.mem_jobs
      rw [show op.jobs = [] from hjobs] at hmem
      cases hmem

/-- Every job that the store knows was inserted. -/
theorem insertion_of_job {ms : List Moment} (h : Trace MomentStep Image.empty ms a) {id : String}
    (hid : a.jobs id ≠ none) : ∃ job now, .insertion job now ∈ ms ∧ job.id = id := by
  refine Trace.history (P := fun ms a => a.jobs id ≠ none → ∃ job now, .insertion job now ∈ ms ∧
    job.id = id) (fun hid => absurd rfl hid) (fun ms m b b' _ ih hstep hid => ?_) h hid
  rcases hstep.jobs_ne_none hid with hid | ⟨job, now, rfl, hid⟩
  · obtain ⟨job, now, hmem, hid⟩ := ih hid
    exact ⟨job, now, List.mem_append_left _ hmem, hid⟩
  · exact ⟨job, now, List.mem_append_right _ (List.mem_singleton_self _), hid⟩

end Records

/-! ### The order of moments -/

section Order

variable {calls : List Call}

theorem Call.stamp_of_mem_moments {call : Call} {m : Moment} (hm : m ∈ call.moments) :
    m.stamp? = call.stamp? := by
  have hzip : ∀ {β : Type} (g : β → Option EnqueueResult) (jobs : List PreparedJob) (rs : List β)
      (now : Int64), m ∈ List.zipWith (fun job r => Moment.ask job now (g r)) jobs rs →
        m.stamp? = some now := by
    intro β g jobs rs now hm
    induction jobs generalizing rs with
    | nil => cases hm
    | cons job jobs ih =>
      cases rs with
      | nil => cases hm
      | cons r rs =>
        rcases List.mem_cons.mp hm with rfl | hm
        · rfl
        · exact ih rs hm
  unfold Call.moments at hm
  split at hm
  · exact hzip some _ _ _ hm
  · exact hzip (fun resp => some (.ok resp)) _ _ _ hm
  · obtain ⟨job, -, rfl⟩ := List.mem_map.mp hm
    rfl
  · obtain ⟨job, -, rfl⟩ := List.mem_map.mp hm
    rfl
  · rw [List.mem_singleton.mp hm]
    rfl

/-- The moments have the stamps of their calls, in order. -/
theorem ordered_moments (h : (stampsOf calls).Pairwise (· ≤ ·)) :
    (momentsOf calls).Pairwise fun m m' => ∀ now now', m.stamp? = some now →
      m'.stamp? = some now' → now ≤ now' := by
  induction calls with
  | nil => exact .nil
  | cons call calls ih =>
    have hcalls : (stampsOf calls).Pairwise (· ≤ ·) := by
      rw [stampsOf, List.filterMap_cons] at h
      cases hstamp : call.stamp? with
      | none => rwa [hstamp] at h
      | some now =>
        rw [hstamp] at h
        exact h.of_cons
    rw [momentsOf, List.flatMap_cons]
    refine List.pairwise_append.mpr ⟨List.pairwise_of_forall_mem_list ?_, ih hcalls, ?_⟩
    · intro m hm m' hm' now now' hnow hnow'
      rw [Call.stamp_of_mem_moments hm] at hnow
      rw [Call.stamp_of_mem_moments hm'] at hnow'
      rw [Option.some.inj (hnow.symm.trans hnow')]
      exact Int64.le_refl _
    · intro m hm m' hm' now now' hnow hnow'
      rw [Call.stamp_of_mem_moments hm] at hnow
      obtain ⟨call', hcall', hm'⟩ := List.mem_flatMap.mp hm'
      rw [Call.stamp_of_mem_moments hm'] at hnow'
      rw [stampsOf, List.filterMap_cons_some hnow] at h
      exact (List.pairwise_cons.mp h).1 now' (List.mem_filterMap.mpr ⟨call', hcall', hnow'⟩)

/-- The jobs of moments are those that the calls ask for. -/
theorem jobs_moments (calls : List Call) :
    ((momentsOf calls).filterMap Moment.job?).Sublist (calls.flatMap Call.jobs) := by
  have hzip : ∀ {β : Type} (g : β → Option EnqueueResult) (jobs : List PreparedJob) (rs : List β)
      (now : Int64), ((List.zipWith (fun job r => Moment.ask job now (g r)) jobs rs).filterMap
        Moment.job?).Sublist jobs := by
    intro β g jobs rs now
    induction jobs generalizing rs with
    | nil => exact .slnil
    | cons job jobs ih =>
      cases rs with
      | nil => exact List.nil_sublist _
      | cons r rs => exact (ih rs).cons_cons job
  induction calls with
  | nil => exact .slnil
  | cons call calls ih =>
    rw [momentsOf, List.flatMap_cons, List.filterMap_append, List.flatMap_cons]
    refine .append ?_ ih
    unfold Call.moments
    split
    · exact hzip some _ _ _
    · exact hzip (fun resp => some (.ok resp)) _ _ _
    · rw [List.filterMap_map]
      exact List.filterMap_some.symm ▸ .refl _
    · rw [List.filterMap_map]
      exact List.filterMap_some.symm ▸ .refl _
    · exact List.nil_sublist _

/-- A job is asked for once. -/
theorem moment_eq_of_id_eq (hadm : Admissible calls) {job job' : PreparedJob} {now now' : Int64}
    {answer answer' : Option EnqueueResult} (hm : .ask job now answer ∈ momentsOf calls)
    (hm' : .ask job' now' answer' ∈ momentsOf calls) (hid : job.id = job'.id) :
    Moment.ask job now answer = .ask job' now' answer' := by
  have hnodup : (((momentsOf calls).filterMap Moment.job?).map PreparedJob.id).Nodup :=
    hadm.fresh.sublist ((jobs_moments calls).map _)
  rw [List.map_filterMap, List.Nodup, List.pairwise_filterMap] at hnodup
  have hsymm : Std.Symm fun m m' : Moment => ∀ b, (m.job?.map PreparedJob.id) = some b →
      ∀ b', (m'.job?.map PreparedJob.id) = some b' → b ≠ b' :=
    ⟨fun m m' h b hb b' hb' heq => h b' hb' b hb heq.symm⟩
  by_contra hne
  exact hnodup.forall hm hm' hne job.id rfl job'.id rfl hid

end Order

/-! ### Once -/

section Once

variable [Prost] {calls : List Call} {server : Server}

/-- A job that is answered by another leaves no row, and the other one was inserted earlier for the
same key of the same queue, and its window has not ended. -/
theorem Run.inserted_of_deduplicated (h : Run calls server) {earlier later : List Moment}
    {job : PreparedJob} {now : Int64} {jobId : String}
    (hsplit : momentsOf calls =
      earlier ++ .ask job now (some (.ok { jobId, deduplicated := true })) :: later) :
    server.rows.Lacks job.id ∧ ∃ key job₁ now₁, job.req.idempotencyKey = some key ∧
      .insertion job₁ now₁ ∈ earlier ∧ job₁.id = jobId ∧ job₁.req.queue = job.req.queue ∧
      job₁.req.idempotencyKey = some key ∧
      now < saturatingAdd now₁ job₁.limits.dedupWindowMs := by
  obtain ⟨turns, a, rfl, hturns, hshows, -⟩ := h.exists_turns
  have hmoments := moments_of_turns hturns
  constructor
  · -- it was asked for once, and then it was not inserted
    have hnever : a.jobs job.id = none := by
      by_contra hknown
      obtain ⟨job₁, now₁, hmem, hid⟩ := insertion_of_job hmoments hknown
      have hmem' : .ask job now (some (.ok { jobId, deduplicated := true })) ∈
          momentsOf (turns.map Turn.call) := by
        rw [hsplit]
        simp
      have heq := moment_eq_of_id_eq h.admissible hmem hmem' hid
      obtain ⟨-, -, hanswer⟩ := Moment.ask.inj heq
      cases hanswer
    exact hshows.lacks hnever
  · rw [hsplit] at hmoments
    obtain ⟨b, hearlier, hrest⟩ := hmoments.split
    obtain ⟨c, hask, -⟩ := hrest.split_first
    obtain ⟨name, d, hnames, hd, hlive, rfl⟩ := hask.exists_hit
    obtain ⟨job₁, now₁, hmem, hnames₁, rfl⟩ := insertion_of_dedup hearlier hd
    exact ⟨name.2, job₁, now₁, hnames.2, hmem, rfl, hnames₁.1.trans hnames.1.symm, hnames₁.2,
      hlive⟩

/-- When the stamps never decrease, a job that is inserted for an idempotency key of a queue answers
for the key until its window ends or a chunk of the queue is purged. After its window, an accepted
job is inserted, unless another one was inserted for the key since. Whatever job is answered by
another leaves no row, and the other one was inserted for the same key of the same queue, and its
window has not ended. -/
theorem Run.enqueue_once (h : Run calls server) (hstamps : (stampsOf calls).Pairwise (· ≤ ·)) :
    (∀ (earlier between later : List Moment) (job job' : PreparedJob) (now now' : Int64)
      (jobId key : String) (answer : Option EnqueueResult),
      momentsOf calls = earlier ++ .ask job now (some (.ok { jobId, deduplicated := false })) ::
        (between ++ .ask job' now' answer :: later) →
      job'.req.queue = job.req.queue → job.req.idempotencyKey = some key →
      job'.req.idempotencyKey = some key →
      (now' < saturatingAdd now job.limits.dedupWindowMs →
        (∀ m ∈ between, ¬ m.Purges job.req.queue) →
        answer = none ∨ (∃ queue, answer = some (.error (.queueClosing queue))) ∨
          answer = some (.ok { jobId, deduplicated := true })) ∧
      (¬ now' < saturatingAdd now job.limits.dedupWindowMs →
        (∀ job₁ now₁, .insertion job₁ now₁ ∈ between → job₁.req.queue = job.req.queue →
          job₁.req.idempotencyKey ≠ some key) →
        ∀ resp, answer = some (.ok resp) → resp = { jobId := job'.id, deduplicated := false })) ∧
    ∀ (earlier later : List Moment) (job : PreparedJob) (now : Int64) (jobId : String),
      momentsOf calls =
        earlier ++ .ask job now (some (.ok { jobId, deduplicated := true })) :: later →
      server.rows.Lacks job.id ∧ ∃ key job₁ now₁, job.req.idempotencyKey = some key ∧
        .insertion job₁ now₁ ∈ earlier ∧ job₁.id = jobId ∧ job₁.req.queue = job.req.queue ∧
        job₁.req.idempotencyKey = some key ∧
        now < saturatingAdd now₁ job₁.limits.dedupWindowMs := by
  refine ⟨fun earlier between later job job' now now' jobId key answer hsplit hqueue hkey hkey' => ?_,
    fun earlier later job now jobId hsplit => h.inserted_of_deduplicated hsplit⟩
  obtain ⟨turns, a, rfl, hturns, -⟩ := h.exists_turns
  have hmoments := moments_of_turns hturns
  have hordered := ordered_moments hstamps
  rw [hsplit] at hmoments hordered
  obtain ⟨-, hordered, -⟩ := List.pairwise_append.mp hordered
  obtain ⟨-, -, hstamp⟩ := List.pairwise_append.mp hordered.of_cons
  obtain ⟨b, -, hrest⟩ := hmoments.split
  obtain ⟨c, hask, hrest⟩ := hrest.split_first
  obtain ⟨e, hbetween, hrest⟩ := hrest.split
  obtain ⟨e', hask', -⟩ := hrest.split_first
  obtain ⟨rfl, hq, hrecord⟩ := hask.exists_record hkey
  have hnames' : job'.Names (⟨job.req.queue, hq⟩, key) := ⟨hqueue, hkey'⟩
  constructor
  · intro hlive hpurge
    cases answer with
    | none => exact .inl rfl
    | some r =>
      have hkept := dedup_of_moments hbetween hrecord (fun m hm t ht =>
        Int64.lt_of_le_of_lt (hstamp m hm _ List.mem_cons_self t now' ht rfl) hlive) hpurge
      rcases hask'.answer_of_record hnames' hkept hlive with ⟨queue, rfl⟩ | rfl
      · exact .inr (.inl ⟨queue, rfl⟩)
      · exact .inr (.inr rfl)
  · intro hended hnone resp hresp
    subst hresp
    rcases hask'.accepted with rfl | ⟨jobId, rfl⟩
    · rfl
    · obtain ⟨d, hd, hlive, -⟩ := hask'.exists_live hnames'
      rcases dedup_of_no_insertion hbetween hrecord (fun job₁ now₁ hmem hnames₁ =>
        hnone job₁ now₁ hmem hnames₁.1 hnames₁.2) with hd' | hd'
      · obtain rfl := Option.some.inj (hd'.symm.trans hd)
        exact absurd hlive hended
      · cases hd'.symm.trans hd

end Once

/-- A job for one idempotency key, with a window of its own. -/
def keyedJob (id : String) (window : Int64) : PreparedJob where
  id := id
  req := { queue := "emails", jobType := "send", idempotencyKey := some "k" }
  limits := { priority := 5, maxAttempts := 3, dedupWindowMs := window }

/-- Two jobs for a key in one batch, one more at the end of the window of the first, and another one
in the window of that. -/
def twoWindows : List Op :=
  [.enqueue [keyedJob "a" 1000, keyedJob "b" 5000] 1000, .enqueue [keyedJob "c" 1000] 2000,
   .enqueue [keyedJob "d" 1000] 2500]

open WireFormat Server in
/-- The second job of the batch is answered by the first and leaves no row. -/
theorem enqueue_once_twoWindows :
    momentsOf (performAll twoWindows {}).1 =
        [.insertion (keyedJob "a" 1000) 1000,
         .ask (keyedJob "b" 5000) 1000 (some (.ok { jobId := "a", deduplicated := true })),
         .insertion (keyedJob "c" 1000) 2000,
         .ask (keyedJob "d" 1000) 2500 (some (.ok { jobId := "c", deduplicated := true }))] ∧
      (performAll twoWindows {}).2.rows.Lacks "b" := by
  have hmoments : momentsOf (performAll twoWindows {}).1 =
      [.insertion (keyedJob "a" 1000) 1000,
       .ask (keyedJob "b" 5000) 1000 (some (.ok { jobId := "a", deduplicated := true })),
       .insertion (keyedJob "c" 1000) 2000,
       .ask (keyedJob "d" 1000) 2500 (some (.ok { jobId := "c", deduplicated := true }))] := by
    decide +kernel
  have hrun : Run (performAll twoWindows {}).1 (performAll twoWindows {}).2 :=
    Run.of_performAll (by decide) (by decide)
  have hsplit : momentsOf (performAll twoWindows {}).1 =
      [.insertion (keyedJob "a" 1000) 1000] ++
        .ask (keyedJob "b" 5000) 1000 (some (.ok { jobId := "a", deduplicated := true })) :: _ :=
    hmoments
  obtain ⟨-, hhit⟩ := hrun.enqueue_once (by decide +kernel)
  exact ⟨hmoments, (hhit _ _ _ _ _ hsplit).1⟩

open WireFormat Server in
/-- After the window of the first job, an accepted job is answered by the third one, which was
inserted in the meantime. -/
theorem not_fresh_after_window :
    Run (performAll twoWindows {}).1 (performAll twoWindows {}).2 ∧
      (stampsOf (performAll twoWindows {}).1).Pairwise (· ≤ ·) ∧
      momentsOf (performAll twoWindows {}).1 =
        .insertion (keyedJob "a" 1000) 1000 ::
          ([.ask (keyedJob "b" 5000) 1000 (some (.ok { jobId := "a", deduplicated := true })),
            .insertion (keyedJob "c" 1000) 2000] ++
          [.ask (keyedJob "d" 1000) 2500 (some (.ok { jobId := "c", deduplicated := true }))]) ∧
      ¬ (2500 : Int64) < saturatingAdd 1000 (keyedJob "a" 1000).limits.dedupWindowMs :=
  ⟨Run.of_performAll (by decide) (by decide), by decide +kernel, by decide +kernel, by decide⟩

end Sepp
