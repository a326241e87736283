import Sepp.Refine.Basic
import Sepp.Spec.Enqueue

/-!
# Enqueueing makes events

Every job of a batch is answered by one event: it is inserted, or it hits the record of its
idempotency key, or it is turned away because its queue is full or closing. An atomic batch is
turned away as a whole, or every job of it is inserted or hits.
-/

open Std

namespace Sepp

variable [Prost]

/-! ### The dedup check -/

/-- The timer of the record that an insertion will replace. -/
def Image.staleTimer (a : Image) (job : PreparedJob) (hq : FitsPrefix job.req.queue) :
    Option Bytes :=
  job.req.idempotencyKey.bind fun key =>
    (a.dedup (⟨job.req.queue, hq⟩, key)).map fun d =>
      dedupTimer (⟨job.req.queue, hq⟩, key) d.deadline

section CheckDedup

variable {a : Image} {rows : Rows} {idx : Indexes} {job : PreparedJob}
  {hq : FitsPrefix job.req.queue} {now : Int64}

theorem checkDedup_run_unseen (hrep : Represents a rows idx) (h : a.Unseen job hq now) (c : Cycle) :
    checkDedup job.req now ⟨rows, idx, c, fun _ => none⟩ =
      .ok (.miss (a.staleTimer job hq)) ⟨rows, idx, c, fun _ => none⟩ := by
  cases hkey : job.req.idempotencyKey with
  | none => simp [checkDedup, hkey, Image.staleTimer, pure_run]
  | some key =>
    cases hd : a.dedup (⟨job.req.queue, hq⟩, key) with
    | none =>
      have hget := hrep.dedup.get_dedup_eq_none hd
      simp only [checkDedup, hkey, Image.staleTimer, bind_run, txGet_run, Rows.get, hget, pure_run,
        Option.bind_some, hd, Option.map_none]
    | some d =>
      have hget := hrep.dedup.get_dedup hd
      have hlive : ¬ now < d.deadline := h key d hkey hd
      simp only [checkDedup, hkey, Image.staleTimer, bind_run, txGet_run, Rows.get, hget,
        DedupValue.decode_encode, hlive, if_false, pure_run, Option.bind_some, hd, Option.map_some]
      rfl

theorem checkDedup_run_live (hrep : Represents a rows idx) {key : String} {d : DedupState}
    (hkey : job.req.idempotencyKey = some key) (hd : a.dedup (⟨job.req.queue, hq⟩, key) = some d)
    (hlive : d.Live now) (c : Cycle) :
    checkDedup job.req now ⟨rows, idx, c, fun _ => none⟩ =
      .ok (.hit { jobId := d.jobId, deduplicated := true })
        ⟨rows, idx, c.deduplicated job.req.queue, fun _ => none⟩ := by
  have hget := hrep.dedup.get_dedup hd
  have hlt : now < d.deadline := hlive
  simp only [checkDedup, hkey, bind_run, txGet_run, Rows.get, hget, DedupValue.decode_encode, hlt,
    if_true, onCycle_run, pure_run]

omit [Prost] in
/-- A job is unseen, or the record of its key answers. -/
theorem Image.unseen_or_live (a : Image) (job : PreparedJob) (hq : FitsPrefix job.req.queue)
    (now : Int64) : a.Unseen job hq now ∨ ∃ key d, job.req.idempotencyKey = some key ∧
      a.dedup (⟨job.req.queue, hq⟩, key) = some d ∧ d.Live now := by
  by_cases h : a.Unseen job hq now
  · exact .inl h
  · simp only [Image.Unseen, not_forall, not_not] at h
    obtain ⟨key, d, hkey, hd, hlive⟩ := h
    exact .inr ⟨key, d, hkey, hd, hlive⟩

end CheckDedup

/-! ### Insertion -/

omit [Prost] in
/-- The dedup rows of an insertion. -/
theorem insertDedup_run {a : Image} {job : PreparedJob} (hq : FitsPrefix job.req.queue)
    {key : String} (rows : Rows) (idx : Indexes)
    (h : DedupRepr a.dedup rows.dedup rows.dedupTimers idx.dedupTimers)
    (hkey : job.req.idempotencyKey = some key) (now : Int64) (c : Cycle) :
    ∃ dedup timers index,
      insertDedup job key now (a.staleTimer job hq) ⟨rows, idx, c, fun _ => none⟩ = .ok ()
        ⟨{ rows with dedup, dedupTimers := timers }, { idx with dedupTimers := index }, c,
          fun _ => none⟩ ∧
      DedupRepr (Function.update a.dedup (⟨job.req.queue, hq⟩, key) (some (job.record now)))
        dedup timers index := by
  cases hd : a.dedup (⟨job.req.queue, hq⟩, key) with
  | none =>
    refine ⟨_, _, _, ?_, h.remember hd (job.record now)⟩
    simp only [insertDedup, Image.staleTimer, hkey, Option.bind_some, hd, Option.map_none, bind_run,
      txInsert_run, onIndexes_run]
    rfl
  | some d =>
    refine ⟨_, _, _, ?_, h.replace hd (job.record now)⟩
    simp only [insertDedup, Image.staleTimer, hkey, Option.bind_some, hd, Option.map_some, bind_run,
      txRemove_run, txInsert_run, onIndexes_run]
    rfl

/-- The place of an insertion. -/
theorem insertPlace_run {J : String → Option JobState} {rows : Rows} {idx : Indexes}
    {job : PreparedJob} {hq : FitsPrefix job.req.queue} {now : Stamp} (h : JobsRepr J rows idx)
    (hJ : J job.id = some { job.fresh hq now with place := .limbo }) (c : Cycle) :
    ∃ ready scheduled readyIdx scheduledIdx c',
      insertPlace job now ⟨rows, idx, c, fun _ => none⟩ = .ok ()
        ⟨{ rows with ready, scheduled },
          { idx with ready := readyIdx, scheduled := scheduledIdx }, c', fun _ => none⟩ ∧
      JobsRepr (Function.update J job.id (some (job.fresh hq now)))
        { rows with ready, scheduled } { idx with ready := readyIdx, scheduled := scheduledIdx } ∧
      ∀ c'', c''.dirty = true → c''.newReady = c'.newReady →
        Notes [(.enqueued, job.req.queue)] c' c'' → Recorded [.insert job now] c c'' := by
  have hready : job.firstPlace now = .ready 1 →
      JobsRepr (Function.update J job.id (some (job.fresh hq now)))
        { rows with
          ready := rows.ready.insert ((job.fresh hq now).readyKey job.id) (KeyWriter.u32 1) }
        { idx with ready := idx.ready.insert ((job.fresh hq now).readyKey job.id) 1 } ∧
      ∀ c'', c''.dirty = true → c''.newReady = (c.readied job.req.queue).newReady →
        Notes [(.enqueued, job.req.queue)] c c'' → Recorded [.insert job now] c c'' := by
    intro hfirst
    have hmoved := h.place_ready hJ rfl 1
    have hfresh : { job.fresh hq now with place := .ready 1 } = job.fresh hq now := by
      simp [PreparedJob.fresh, hfirst]
    rw [hfresh] at hmoved
    refine ⟨hmoved, fun c'' hdirty hnew hnotes => .of_readies rfl ?_ hdirty hnew hnotes⟩
    simp [Event.readies, hfirst]
  cases hat : job.req.scheduledAt.map timestampToMillis with
  | none =>
    obtain ⟨hjobs, hrec⟩ := hready (by simp [PreparedJob.firstPlace, hat])
    refine ⟨_, _, _, _, c.readied job.req.queue, ?_, hjobs, hrec⟩
    simp only [insertPlace, hat, bind_run, txInsert_run, onIndexes_run, onCycle_run]
    rfl
  | some at_ =>
    by_cases hlater : now < at_
    · have hfirst : job.firstPlace now = .scheduled 1 at_ := by
        simp [PreparedJob.firstPlace, hat, hlater]
      have hmoved := h.place_scheduled hJ rfl 1 at_
      have hfresh : { job.fresh hq now with place := .scheduled 1 at_ } = job.fresh hq now := by
        simp [PreparedJob.fresh, hfirst]
      rw [hfresh] at hmoved
      refine ⟨_, _, _, _, c, ?_, hmoved,
        fun c'' hdirty hnew hnotes => .of_writes rfl ?_ hdirty hnew hnotes⟩
      · simp only [insertPlace, hat, hlater, if_true, bind_run, txInsert_run, onIndexes_run]
        rfl
      · simp [Event.readies, hfirst]
    · obtain ⟨hjobs, hrec⟩ := hready (by simp [PreparedJob.firstPlace, hat, hlater])
      refine ⟨_, _, _, _, c.readied job.req.queue, ?_, hjobs, hrec⟩
      simp only [insertPlace, hat, hlater, if_false, bind_run, txInsert_run, onIndexes_run,
        onCycle_run]
      rfl

/-- The body and the place of an insertion, before the dedup rows. -/
theorem insertJob_run {a : Image} {rows : Rows} {idx : Indexes} {job : PreparedJob} {now : Stamp}
    (hrep : Represents a rows idx) (hq : FitsPrefix job.req.queue) (hnew : a.jobs job.id = none)
    (staleTimer : Option Bytes) (c : Cycle) :
    ∃ jobs payloads ready scheduled readyIdx scheduledIdx c',
      insertJob job now staleTimer ⟨rows, idx, c, fun _ => none⟩ = (do
        match job.req.idempotencyKey with
        | some key => insertDedup job key now staleTimer
        | none => pure ()
        onCycle (Cycle.enqueued job.req.queue)
        onCycle Cycle.markDirty
        return { jobId := job.id, deduplicated := false } : TxM EnqueueResponse)
          ⟨{ rows with jobs, payloads, ready, scheduled },
            { idx with ready := readyIdx, scheduled := scheduledIdx }, c', fun _ => none⟩ ∧
      JobsRepr (Function.update a.jobs job.id (some (job.fresh hq now)))
        { rows with jobs, payloads, ready, scheduled }
        { idx with ready := readyIdx, scheduled := scheduledIdx } ∧
      ∀ c'', c''.dirty = true → c''.newReady = c'.newReady →
        Notes [(.enqueued, job.req.queue)] c' c'' → Recorded [.insert job now] c c'' := by
  have hadded := hrep.jobs.add_job { job.fresh hq now with place := .limbo } hnew rfl
  obtain ⟨ready, scheduled, readyIdx, scheduledIdx, c', hplace, hjobs, hrec⟩ :=
    insertPlace_run hadded (Function.update_self ..) c
  refine ⟨_, _, ready, scheduled, readyIdx, scheduledIdx, c', ?_, hjobs.of_two_moves, hrec⟩
  have hpayload : (job.fresh hq now).content.payload = job.req.payload := rfl
  cases hp : job.req.payload with
  | none =>
    simp only [insertJob, hp]
    refine (bind_run_ok rfl).trans ?_
    simp only [hpayload, hp] at hplace ⊢
    exact bind_run_ok hplace
  | some p =>
    simp only [insertJob, hp]
    refine (bind_run_ok rfl).trans ((bind_run_ok rfl).trans ?_)
    simp only [hpayload, hp] at hplace ⊢
    exact bind_run_ok hplace

theorem insertJob_realizes {a : Image} {job : PreparedJob} {now : Stamp}
    (hq : FitsPrefix job.req.queue) (hnew : a.jobs job.id = none) (hunseen : a.Unseen job hq now)
    (hopen : ¬ a.Closing job.req.queue now) :
    Realizes (insertJob job now (a.staleTimer job hq)) a fun r evs a' =>
      r = { jobId := job.id, deduplicated := false } ∧ evs = [.insert job now] ∧
        a' = a.insertJob job hq now := by
  refine Realizes.of_event fun rows idx c hrep => ?_
  obtain ⟨jobs, payloads, ready, scheduled, readyIdx, scheduledIdx, c', hrun, hjobs, hrec⟩ :=
    insertJob_run hrep hq hnew (a.staleTimer job hq) c
  have hsettled : (a.setJob job.id (some (job.fresh hq now))).Settled := by
    refine hrep.settled.setJob job.id fun js hjs => ?_
    rw [← Option.some.inj hjs, PreparedJob.fresh, PreparedJob.firstPlace]
    split <;> try split_ifs
    all_goals simp
  have hstep := Step.insert hq hnew hunseen hopen
  have hdone : Recorded [.insert job now] c (c'.enqueued job.req.queue).markDirty :=
    hrec _ rfl rfl (.enqueued c' job.req.queue)
  cases hkey : job.req.idempotencyKey with
  | none =>
    have hafter : a.insertJob job hq now = a.setJob job.id (some (job.fresh hq now)) := by
      rw [Image.insertJob, Image.rememberJob, hkey]
    rw [← Image.insertJob, hafter] at hstep
    refine ⟨_, _, _, _, _, _, ?_, hstep, ⟨hsettled, hjobs, hrep.dedup, hrep.metadata⟩, hdone, rfl,
      rfl, hafter.symm⟩
    rw [hrun]
    simp only [hkey]
    rfl
  | some key =>
    have hafter : a.insertJob job hq now =
        (a.setJob job.id (some (job.fresh hq now))).setDedup (⟨job.req.queue, hq⟩, key)
          (some (job.record now)) := by
      rw [Image.insertJob, Image.rememberJob, hkey]
    rw [← Image.insertJob, hafter] at hstep
    obtain ⟨dedup, timers, index, hdedup, hdedup'⟩ := insertDedup_run hq
      { rows with jobs, payloads, ready, scheduled }
      { idx with ready := readyIdx, scheduled := scheduledIdx } hrep.dedup hkey now c'
    refine ⟨_, { rows with jobs, payloads, ready, scheduled, dedup, dedupTimers := timers },
      { idx with ready := readyIdx, scheduled := scheduledIdx, dedupTimers := index }, _, _, _, ?_,
      hstep, ⟨hsettled, ⟨hjobs.body, hjobs.ready, hjobs.scheduled, hjobs.lease, hjobs.dead⟩,
        hdedup', hrep.metadata⟩, hdone, rfl, rfl, hafter.symm⟩
    rw [hrun]
    simp only [hkey]
    exact bind_run_ok hdedup

/-! ### A batch -/

/-- A job is accepted: it is inserted, or it hits the record of its key. -/
def Accepts (now : Int64) (job : PreparedJob) (resp : EnqueueResponse) (evs : List Event) : Prop :=
  (resp = { jobId := job.id, deduplicated := false } ∧ evs = [.insert job now]) ∨
    (resp.deduplicated = true ∧ evs = [.hit job now resp.jobId])

/-- The event that answers a job of a best-effort batch. -/
def Answers (now : Int64) (job : PreparedJob) : EnqueueResult → List Event → Prop
  | .ok resp, evs => Accepts now job resp evs
  | .error (.queueFull ..), evs => evs = [.full job now]
  | .error (.queueClosing ..), evs => evs = [.closed job now]

theorem Represents.isClosing_iff {a : Image} {rows : Rows} {idx : Indexes}
    (h : Represents a rows idx) (queue : String) (now : Int64) :
    idx.isClosing queue now = true ↔ a.Closing queue now := by
  rw [Indexes.isClosing, h.metadata.closing queue, Option.any_eq_true, Image.Closing]
  simp

theorem hit_realizes {a : Image} {job : PreparedJob} {hq : FitsPrefix job.req.queue} {now : Int64}
    {key : String} {d : DedupState} (hkey : job.req.idempotencyKey = some key)
    (hd : a.dedup (⟨job.req.queue, hq⟩, key) = some d) (hlive : d.Live now) :
    Realizes (checkDedup job.req now) a fun r evs a' =>
      r = .hit { jobId := d.jobId, deduplicated := true } ∧ evs = [.hit job now d.jobId] ∧
        a' = a := by
  refine Realizes.of_event fun rows idx c hrep => ?_
  exact ⟨_, rows, idx, _, _, _, checkDedup_run_live hrep hkey hd hlive c, .hit hq hkey hd hlive,
    hrep, .of_silent rfl rfl rfl rfl (.deduplicated c job.req.queue), rfl, rfl, rfl⟩

theorem enqueueOne_realizes {a : Image} {job : PreparedJob} {now : Stamp}
    (hq : FitsPrefix job.req.queue) (hnew : a.jobs job.id = none) :
    Realizes (enqueueOne now job) a fun r evs a' =>
      Answers now job r evs ∧ EnqueueTurn now a job r a' := by
  refine Realizes.bind_getIndexes fun rows idx hrep => ?_
  by_cases hclosing : a.Closing job.req.queue now
  · rw [if_pos ((hrep.isClosing_iff _ _).mpr hclosing)]
    refine Realizes.of_event fun rows₁ idx₁ c hrep₁ => ?_
    exact ⟨_, rows₁, idx₁, c, .closed job now, a, rfl, .closed hclosing, hrep₁,
      .of_silent rfl rfl rfl rfl (.of_eq rfl), rfl, .closing hclosing⟩
  rw [if_neg (by rwa [hrep.isClosing_iff])]
  rcases a.unseen_or_live job hq now with hunseen | ⟨key, d, hkey, hd, hlive⟩
  swap
  · refine Refinement.Realizes.bind (hit_realizes hkey hd hlive) ?_
    rintro _ _ a' - ⟨rfl, rfl, rfl⟩
    exact Refinement.Realizes.pure ⟨.inr ⟨rfl, rfl⟩, .hit hclosing hq hkey hd hlive⟩
  refine Refinement.Realizes.bind_observe (v := .miss (a.staleTimer job hq))
    (fun ⟨rows, idx, c, _⟩ ⟨hrep, hcalm⟩ => ?_) ?_
  · obtain rfl : _ = fun _ => none := hcalm
    exact checkDedup_run_unseen hrep hunseen c
  have hinsert (hroom : ∀ cap, job.limits.maxQueueDepth = some cap →
      a.live job.req.queue < cap.toNat) :
      Realizes (do return .ok (← insertJob job now (a.staleTimer job hq))) a
        fun r evs a' => Answers now job r evs ∧ EnqueueTurn now a job r a' := by
    refine Refinement.Realizes.bind (insertJob_realizes hq hnew hunseen hclosing) ?_
    rintro _ _ a' - ⟨rfl, rfl, rfl⟩
    exact Refinement.Realizes.pure ⟨.inl ⟨rfl, rfl⟩, .insert hclosing hq hnew hunseen hroom⟩
  cases hcap : job.limits.maxQueueDepth with
  | none =>
    simp only
    exact hinsert (by simp [hcap])
  | some cap =>
    simp only
    refine Realizes.bind_getIndexes fun rows₁ idx₁ hrep₁ => ?_
    by_cases hfull : cap.toNat ≤ idx₁.liveDepth job.req.queue
    · rw [if_pos hfull]
      rw [hrep₁.liveDepth_eq] at hfull
      refine Realizes.of_event fun rows₁ idx₁ c hrep₁ => ?_
      exact ⟨_, rows₁, idx₁, c, .full job now, a, rfl, .full hq hunseen, hrep₁,
        .of_silent rfl rfl rfl rfl (.of_eq rfl), rfl, .full hclosing hq hunseen hcap hfull⟩
    · rw [if_neg hfull]
      rw [hrep₁.liveDepth_eq, Nat.not_le] at hfull
      refine hinsert fun cap' hcap' => ?_
      obtain rfl := Option.some.inj (hcap'.symm.trans hcap)
      exact hfull

/-- The jobs left to enqueue stay new when one job before them is answered. -/
theorem Image.Fresh.tail {a a' : Image} {job : PreparedJob} {jobs : List PreparedJob}
    {evs : List Event} (h : a.Fresh (job :: jobs)) (htrace : Trace Step a evs a')
    (hevs : ∀ e ∈ evs, e.jobId? = some job.id ∨ e.jobId? = none) : a'.Fresh jobs := by
  obtain ⟨hnodup, hnew⟩ := h
  rw [List.map_cons, List.nodup_cons] at hnodup
  refine ⟨hnodup.2, fun job' hjob' => ?_⟩
  refine htrace.preserves (P := fun a => a.jobs job'.id = none) (fun a e b he hstep ha => ?_)
    (hnew job' (List.mem_cons_of_mem _ hjob'))
  have hne : job.id ≠ job'.id := fun heq => hnodup.1 (heq ▸ List.mem_map_of_mem hjob')
  rw [hstep.jobs_of_ne, ha]
  rcases hevs e he with hid | hid <;> simp [hid, hne]

omit [Prost] in
theorem Accepts.jobId {now : Int64} {job : PreparedJob} {resp : EnqueueResponse}
    {evs : List Event} (h : Accepts now job resp evs) :
    ∀ e ∈ evs, e.jobId? = some job.id ∨ e.jobId? = none := by
  intro e he
  rcases h with ⟨-, rfl⟩ | ⟨-, rfl⟩ <;> rw [List.mem_singleton.mp he]
  · exact .inl rfl
  · exact .inr rfl

omit [Prost] in
theorem Answers.jobId {now : Int64} {job : PreparedJob} {r : EnqueueResult} {evs : List Event}
    (h : Answers now job r evs) : ∀ e ∈ evs, e.jobId? = some job.id ∨ e.jobId? = none := by
  intro e he
  unfold Answers at h
  split at h
  · exact h.jobId e he
  all_goals
    rw [h, List.mem_singleton] at he
    exact .inr (he ▸ rfl)

theorem applyEnqueue_realizes {a : Image} {jobs : List PreparedJob} (now : Stamp)
    (hfits : ∀ job ∈ jobs, FitsPrefix job.req.queue) (hfresh : a.Fresh jobs) :
    Realizes (applyEnqueue jobs now) a fun rs evs a' =>
      Grouped (Answers now) jobs rs evs ∧ Chained (EnqueueTurn now) a jobs rs a' := by
  refine Refinement.Realizes.mapM_chained
    (I := fun a jobs => a.Fresh jobs ∧ ∀ job ∈ jobs, FitsPrefix job.req.queue)
    (fun job jobs a hI => ?_) jobs a ⟨hfresh, hfits⟩
  have hq := hI.2 job List.mem_cons_self
  have hnew := hI.1.2 job List.mem_cons_self
  refine (enqueueOne_realizes hq hnew).mono
    fun r evs a' htrace ⟨hanswer, hturn⟩ => ⟨hanswer, hturn, ?_, ?_⟩
  · exact hI.1.tail htrace hanswer.jobId
  · exact fun job' hjob' => hI.2 job' (List.mem_cons_of_mem _ hjob')

/-! ### An atomic batch -/

theorem enqueueAdmitted_realizes {a : Image} {job : PreparedJob} {now : Stamp}
    (hq : FitsPrefix job.req.queue) (hnew : a.jobs job.id = none)
    (hopen : ¬ a.Closing job.req.queue now) :
    Realizes (enqueueAdmitted now job) a fun r evs a' =>
      Accepts now job r evs ∧ AcceptTurn now a job r a' := by
  rcases a.unseen_or_live job hq now with hunseen | ⟨key, d, hkey, hd, hlive⟩
  · refine Refinement.Realizes.bind_observe (v := .miss (a.staleTimer job hq))
      (fun ⟨rows, idx, c, _⟩ ⟨hrep, hcalm⟩ => ?_) ?_
    · obtain rfl : _ = fun _ => none := hcalm
      exact checkDedup_run_unseen hrep hunseen c
    · refine (insertJob_realizes hq hnew hunseen hopen).mono ?_
      rintro _ _ a' - ⟨rfl, rfl, rfl⟩
      exact ⟨.inl ⟨rfl, rfl⟩, .insert hq hnew hunseen⟩
  · refine Refinement.Realizes.bind (hit_realizes hkey hd hlive) ?_
    rintro _ _ a' - ⟨rfl, rfl, rfl⟩
    exact Refinement.Realizes.pure ⟨.inr ⟨rfl, rfl⟩, .hit hq hkey hd hlive⟩

omit [Prost] in
theorem Accepts.closes {now : Int64} {job : PreparedJob} {resp : EnqueueResponse}
    {evs : List Event} (h : Accepts now job resp evs) : ∀ e ∈ evs, e.closes = false := by
  intro e he
  rcases h with ⟨-, rfl⟩ | ⟨-, rfl⟩ <;> rw [List.mem_singleton.mp he] <;> rfl

omit [Prost] in
theorem closingRejections_eq_nil {idx : Indexes} {jobs : List PreparedJob} {now : Int64}
    (h : closingRejections idx jobs now = []) :
    ∀ job ∈ jobs, ¬ idx.isClosing job.req.queue now := by
  intro job hjob
  obtain ⟨i, hi, rfl⟩ := List.mem_iff_getElem.mp hjob
  rw [closingRejections, List.map_eq_nil_iff, List.filter_eq_nil_iff] at h
  refine h (jobs[i], i) ?_
  rw [List.mem_zipIdx_iff_getElem?]
  exact List.getElem?_eq_getElem hi

/-- What an atomic batch does: every job is accepted, or nothing happens. -/
def AnswersAtomic (now : Int64) (jobs : List PreparedJob) :
    AtomicEnqueueOutcome → List Event → Prop
  | .committed resps, evs => Grouped (Accepts now) jobs resps evs
  | .rejected _, evs => evs = []

/-- The loop of an admitted batch. -/
theorem mapM_enqueueAdmitted_realizes {a : Image} {jobs : List PreparedJob} (now : Stamp)
    (hfits : ∀ job ∈ jobs, FitsPrefix job.req.queue) (hfresh : a.Fresh jobs)
    (hopen : ∀ job ∈ jobs, ¬ a.Closing job.req.queue now) :
    Realizes (jobs.mapM (enqueueAdmitted now)) a fun resps evs a' =>
      Grouped (Accepts now) jobs resps evs ∧ Chained (AcceptTurn now) a jobs resps a' := by
  refine Refinement.Realizes.mapM_chained
    (I := fun a jobs => a.Fresh jobs ∧
      ∀ job ∈ jobs, FitsPrefix job.req.queue ∧ ¬ a.Closing job.req.queue now)
    (fun job jobs a hI => ?_) jobs a ⟨hfresh, fun job hjob => ⟨hfits job hjob, hopen job hjob⟩⟩
  obtain ⟨hq, hjob⟩ := hI.2 job List.mem_cons_self
  refine (enqueueAdmitted_realizes hq (hI.1.2 job List.mem_cons_self) hjob).mono
    fun r evs a' htrace ⟨haccept, hturn⟩ =>
      ⟨haccept, hturn, hI.1.tail htrace haccept.jobId, fun job' hjob' => ?_⟩
  have hclosing' : a'.closing = a.closing :=
    htrace.preserves (P := fun b => b.closing = a.closing)
      (fun _ e _ he hstep hb => (hstep.closing_eq (haccept.closes e he)).trans hb) rfl
  rw [Image.Closing, hclosing']
  exact hI.2 job' (List.mem_cons_of_mem _ hjob')

theorem applyEnqueueAtomic_realizes {a : Image} {jobs : List PreparedJob} (now : Stamp)
    (hfits : ∀ job ∈ jobs, FitsPrefix job.req.queue) (hfresh : a.Fresh jobs) :
    Realizes (applyEnqueueAtomic jobs now) a fun r evs a' =>
      AnswersAtomic now jobs r evs ∧ ∀ resps, r = .committed resps →
        Chained (AcceptTurn now) a jobs resps a' ∧ ∀ rows idx, Represents a rows idx →
          closingRejections idx jobs now = [] ∧ (fullQueues idx jobs).isEmpty = true := by
  refine Realizes.bind_getIndexes fun rows idx hrep => ?_
  by_cases hclosing : closingRejections idx jobs now = []
  swap
  · rw [if_pos hclosing]
    exact Refinement.Realizes.pure ⟨rfl, by simp⟩
  rw [if_neg (not_not.mpr hclosing)]
  by_cases hfull : (fullQueues idx jobs).isEmpty
  swap
  · rw [if_neg hfull]
    exact Refinement.Realizes.pure ⟨rfl, by simp⟩
  rw [if_pos hfull]
  have hopen : ∀ job ∈ jobs, ¬ a.Closing job.req.queue now := fun job hjob => by
    rw [← hrep.isClosing_iff]
    exact closingRejections_eq_nil hclosing job hjob
  refine Refinement.Realizes.bind (mapM_enqueueAdmitted_realizes now hfits hfresh hopen)
    fun resps evs a' _ ⟨hgroup, hchain⟩ => Refinement.Realizes.pure ⟨?_, fun resps' hresps => ?_⟩
  · rw [List.append_nil]
    exact hgroup
  · obtain rfl := AtomicEnqueueOutcome.committed.inj hresps
    refine ⟨hchain, fun rows₁ idx₁ hrep₁ => ?_⟩
    obtain rfl := hrep.idx_eq hrep₁
    exact ⟨hclosing, hfull⟩

end Sepp
