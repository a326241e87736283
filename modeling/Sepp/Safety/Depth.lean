import Sepp.Run.Outcomes
import Sepp.Spec.Batch
import Sepp.Wire.Codec

/-!
# The cap on the depth of a queue

After every run the counters that the cap is compared with count the live jobs. An enqueue never
pushes a queue past the cap of its jobs, unless it was past it before. In a best-effort batch each
job is answered in the state that the jobs before it have left: a job of a queue that is not closing
and that hits no record is turned away exactly when its queue is full in that state. The jobs of
other queues in the batch have no say in it.

## Main definitions

* `Rows.hitOf` — the live record of the idempotency key of a job.
* `AnsweredAt` — the answer to a job at its turn.

## Main results

* `Run.depth_capped`.
-/

open Std

namespace Sepp

/-- The job that answers for the idempotency key of a job, if its record is live. -/
def Rows.hitOf (rows : Rows) (job : PreparedJob) (now : Int64) : Option String :=
  job.req.idempotencyKey.bind fun key =>
    ((rows.dedup[DedupKey.encode { queue := job.req.queue, idempotencyKey := key }]?.bind
      DedupValue.decode).filter fun record => now < record.deadline).map DedupValue.jobId

/-- The answer to a job at its turn in a best-effort batch. -/
structure AnsweredAt (server : Server) (job : PreparedJob) (now : Int64) (r : EnqueueResult) :
    Prop where
  closing : server.indexes.isClosing job.req.queue now = true →
    r = .error (.queueClosing job.req.queue)
  hit : server.indexes.isClosing job.req.queue now = false →
    ∀ id, server.rows.hitOf job now = some id → r = .ok { jobId := id, deduplicated := true }
  full_iff : server.indexes.isClosing job.req.queue now = false →
    server.rows.hitOf job now = none → ∀ cap, job.limits.maxQueueDepth = some cap →
      (r = .error (.queueFull job.req.queue cap) ↔
        cap.toNat ≤ server.indexes.liveDepth job.req.queue)
  admitted_iff : server.indexes.isClosing job.req.queue now = false →
    server.rows.hitOf job now = none →
      (r = .ok { jobId := job.id, deduplicated := false } ↔
        ∀ cap, job.limits.maxQueueDepth = some cap →
          server.indexes.liveDepth job.req.queue < cap.toNat)

section Depth

variable [Prost] {a a' : Image} {server server' : Server} {jobs : List PreparedJob}
  {job : PreparedJob} {now : Stamp} {queue : String} {cap : UInt64}

theorem Represents.hitOf_eq_some {rows : Rows} {idx : Indexes} (h : Represents a rows idx)
    {hq : FitsPrefix job.req.queue} {key : String} {d : DedupState}
    (hkey : job.req.idempotencyKey = some key) (hd : a.dedup (⟨job.req.queue, hq⟩, key) = some d)
    (hlive : d.Live now) : rows.hitOf job now = some d.jobId := by
  have hget := h.dedup.get_dedup hd
  have hlt : now.1 < d.deadline := hlive
  simp only [Rows.hitOf, hkey, Option.bind_some, hget, DedupValue.decode_encode]
  rw [Option.filter_some_pos (by simpa using hlt), Option.map_some]

theorem Represents.hitOf_eq_none {rows : Rows} {idx : Indexes} (h : Represents a rows idx)
    {hq : FitsPrefix job.req.queue} (hunseen : a.Unseen job hq now) :
    rows.hitOf job now = none := by
  cases hkey : job.req.idempotencyKey with
  | none => simp [Rows.hitOf, hkey]
  | some key =>
    cases hd : a.dedup (⟨job.req.queue, hq⟩, key) with
    | none =>
      have hget := h.dedup.get_dedup_eq_none hd
      simp only [Rows.hitOf, hkey, Option.bind_some, hget, Option.bind_none]
      rfl
    | some d =>
      have hget := h.dedup.get_dedup hd
      have hdead : ¬ now.1 < d.deadline := hunseen key d hkey hd
      simp only [Rows.hitOf, hkey, Option.bind_some, hget, DedupValue.decode_encode]
      rw [Option.filter_some_neg (by simpa using hdead), Option.map_none]

/-- A turn answers as the store says. -/
theorem EnqueueTurn.answeredAt {r : EnqueueResult} (h : EnqueueTurn now a job r a')
    (hshows : server.Shows a) : AnsweredAt server job now r := by
  have hclosing := hshows.isClosing_iff job.req.queue now
  have hlive := hshows.liveDepth_eq job.req.queue
  have hopen : ¬ a.Closing job.req.queue now →
      server.indexes.isClosing job.req.queue now = false := fun hno => by
    rwa [← hclosing, Bool.not_eq_true] at hno
  cases h with
  | closing hc =>
    have hyes := hclosing.mpr hc
    constructor <;> simp [hyes]
  | hit hno hq hkey hd hl =>
    have hsome := hshows.hitOf_eq_some hkey hd hl
    constructor <;> simp [hopen hno, hsome]
  | full hno hq hunseen hcap hfull =>
    have hnone := hshows.hitOf_eq_none hunseen
    constructor <;> simp [hopen hno, hnone, hcap, hlive, hfull]
  | insert hno hq hnew hunseen hroom =>
    have hnone := hshows.hitOf_eq_none hunseen
    refine ⟨by simp [hopen hno], by simp [hnone], fun _ _ cap hcap => ?_, fun _ _ => ?_⟩
    · have hlt := hroom cap hcap
      simp only [reduceCtorEq, false_iff, hlive]
      omega
    · simpa [hlive] using hroom

/-- An enqueue does not push a queue past the cap of its jobs. -/
theorem liveDepth_le_of_enqueue {now : Int64} {op : Op} {result : Except Status OpOutcome}
    (hop : op = .enqueue jobs now ∨ op = .enqueueAtomic jobs now) (hshows : server.Shows a)
    (hwf : op.WellFormed) (hfresh : a.Fresh op.jobs)
    (hstep : CallStep server (.answered op result) server')
    (hcap : ∀ job ∈ jobs, job.req.queue = queue → job.limits.maxQueueDepth = some cap) :
    server'.indexes.liveDepth queue ≤ max (server.indexes.liveDepth queue) cap.toNat := by
  obtain ⟨evs, b, hturn, hsame⟩ := hstep.exists_turn hshows hwf hfresh
  have hexplained := hturn.explained
  have hidle : evs = [] →
      server'.indexes.liveDepth queue ≤ max (server.indexes.liveDepth queue) cap.toNat := by
    intro hnil
    rw [hsame hnil]
    exact le_max_left _ _
  rcases hop with rfl | rfl
  · cases result with
    | error => exact hidle hexplained
    | ok r =>
      cases r with
      | enqueue rs =>
        obtain ⟨a', hshows', hchain⟩ := hshows.enqueued hwf hfresh hstep
        rw [hshows.liveDepth_eq, hshows'.liveDepth_eq]
        exact live_le_of_turns hchain hshows.finite_jobs hcap
      | _ => exact hexplained.elim
  · cases result with
    | error => exact hidle hexplained
    | ok r =>
      cases r with
      | enqueueAtomic outcome =>
        cases outcome with
        | rejected => exact hidle hexplained
        | committed resps =>
          obtain ⟨a', hshows', hchain, -, hroom⟩ := hshows.enqueuedAtomic hwf hfresh hstep
          have hle := live_le_of_accepted hchain hshows.finite_jobs queue
          rw [← hshows.liveDepth_eq, ← hshows'.liveDepth_eq] at hle
          change _ ≤ _ + batchCount jobs queue at hle
          by_cases hany : ∃ job ∈ jobs, job.req.queue = queue
          · obtain ⟨job, hjob, rfl⟩ := hany
            have hle' := le_cap_of_fullQueues_isEmpty hroom hjob
              (fun job' hjob' hqueue => (hcap job' hjob' hqueue).trans (hcap job hjob rfl).symm)
              (hcap job hjob rfl)
            omega
          · have hzero : batchCount jobs queue = 0 := by
              rw [batchCount, List.countP_eq_zero]
              intro job hjob hqueue
              exact hany ⟨job, hjob, of_decide_eq_true hqueue⟩
            omega
      | _ => exact hexplained.elim

/-- The answer to a job of a batch, and the state in which it is given. -/
theorem Server.Shows.answeredAt (hshows : server.Shows a) {jobs before after : List PreparedJob}
    {rs : List EnqueueResult} {now : Int64} (hwf : (Op.enqueue jobs now).WellFormed)
    (hfresh : a.Fresh jobs)
    (hstep : CallStep server (.answered (.enqueue jobs now) (.ok (.enqueue rs))) server')
    (hjobs : jobs = before ++ job :: after) :
    ∃ rs₁ r rs₂ mid, rs = rs₁ ++ r :: rs₂ ∧ rs₁.length = before.length ∧
      server.perform (.enqueue before now) =
        (.answered (.enqueue before now) (.ok (.enqueue rs₁)), mid) ∧
      mid.indexes.liveDepth job.req.queue =
        server.indexes.liveDepth job.req.queue + admittedIn job.req.queue before rs₁ ∧
      AnsweredAt mid job now r := by
  subst hjobs
  obtain ⟨a', -, hchain⟩ := hshows.enqueued hwf hfresh hstep
  obtain ⟨rs₁, rest, b, rfl, hfirst, hlast⟩ := hchain.split
  cases hlast with
  | @cons _ c _ _ r _ rs₂ hturn _ =>
    -- the state at this turn is the state after the jobs before it
    have hwf' : (Op.enqueue before now).WellFormed :=
      ⟨hwf.1, fun job' hjob' => hwf.2 job' (List.mem_append_left _ hjob')⟩
    obtain ⟨rs₁', mid, b', hperform, hmid, hfirst'⟩ := hshows.perform_enqueue hwf'
      (hfresh.sublist (List.sublist_append_left _ _))
    obtain ⟨rfl, rfl⟩ := turns_det hfirst hfirst'
    refine ⟨rs₁, r, rs₂, mid, rfl, hfirst.length_eq, hperform, ?_, hturn.answeredAt hmid⟩
    rw [hmid.liveDepth_eq, hshows.liveDepth_eq]
    exact live_eq_of_turns hfirst hshows.finite_jobs _

/-- The jobs of a queue are answered as if the batch had no others. -/
theorem Server.Shows.answered_alone (hshows : server.Shows a) {rs : List EnqueueResult}
    {now : Int64} (hwf : (Op.enqueue jobs now).WellFormed) (hfresh : a.Fresh jobs)
    (hstep : CallStep server (.answered (.enqueue jobs now) (.ok (.enqueue rs))) server')
    (queue : String) :
    (server.perform (.enqueue (jobs.filter fun job => job.req.queue = queue) now)).1 =
      .answered (.enqueue (jobs.filter fun job => job.req.queue = queue) now)
        (.ok (.enqueue (resultsIn queue jobs rs))) := by
  have hsub : List.Sublist (jobs.filter fun job => job.req.queue = queue) jobs :=
    List.filter_sublist
  obtain ⟨a', -, hchain⟩ := hshows.enqueued hwf hfresh hstep
  obtain ⟨b', halone⟩ := turns_filter hchain hshows.finite_jobs hshows.finite_jobs
    (Image.AgreeOn.refl queue a) hfresh
  obtain ⟨rs', mid, b'', hperform, -, halone'⟩ := hshows.perform_enqueue
    ⟨hwf.1, fun job hjob => hwf.2 job (hsub.subset hjob)⟩ (hfresh.sublist hsub)
  obtain ⟨rfl, -⟩ := turns_det halone halone'
  rw [hperform]

/-- The depth of a queue is counted exactly, and a cap on it is kept. -/
theorem Run.depth_capped {calls : List Call} (h : Run calls server) :
    (∀ queue : String,
      server.indexes.liveDepth queue = server.rows.countIn queue .jobs ∧
      server.indexes.liveDepth queue = server.rows.countIn queue .ready +
        server.rows.countIn queue .scheduled + server.rows.countIn queue .leases) ∧
    (∀ (jobs : List PreparedJob) (now : Int64) (op : Op) (result : Except Status OpOutcome)
        (server' : Server), (op = .enqueue jobs now ∨ op = .enqueueAtomic jobs now) →
      CallStep server (.answered op result) server' → Admissible (calls ++ [.answered op result]) →
      ∀ (queue : String) (cap : UInt64),
        (∀ job ∈ jobs, job.req.queue = queue → job.limits.maxQueueDepth = some cap) →
        server'.indexes.liveDepth queue ≤ max (server.indexes.liveDepth queue) cap.toNat) ∧
    ∀ (jobs : List PreparedJob) (now : Int64) (rs : List EnqueueResult) (server' : Server),
      CallStep server (.answered (.enqueue jobs now) (.ok (.enqueue rs))) server' →
      Admissible (calls ++ [.answered (.enqueue jobs now) (.ok (.enqueue rs))]) →
      (∀ (before : List PreparedJob) (job : PreparedJob) (after : List PreparedJob),
        jobs = before ++ job :: after →
        ∃ rs₁ r rs₂ mid, rs = rs₁ ++ r :: rs₂ ∧ rs₁.length = before.length ∧
          server.perform (.enqueue before now) =
            (.answered (.enqueue before now) (.ok (.enqueue rs₁)), mid) ∧
          mid.indexes.liveDepth job.req.queue =
            server.indexes.liveDepth job.req.queue + admittedIn job.req.queue before rs₁ ∧
          AnsweredAt mid job now r) ∧
      ∀ queue : String,
        (server.perform (.enqueue (jobs.filter fun job => job.req.queue = queue) now)).1 =
          .answered (.enqueue (jobs.filter fun job => job.req.queue = queue) now)
            (.ok (.enqueue (resultsIn queue jobs rs))) := by
  obtain ⟨-, a, -, -, hshows, hknows⟩ := h.exists_turns
  refine ⟨fun queue => ⟨?_, ?_⟩, ?_, ?_⟩
  · rw [hshows.liveDepth_eq, hshows.countIn_jobs]
  · rw [Indexes.liveDepth, hshows.ready_eq, hshows.scheduled_eq, hshows.leases_eq,
      hshows.countIn_eq queue (.inl rfl), hshows.countIn_eq queue (.inr (.inl rfl)),
      hshows.countIn_eq queue (.inr (.inr (.inl rfl)))]
  · intro jobs now op result server' hop hstep hadm queue cap hcap
    exact liveDepth_le_of_enqueue hop hshows
      (hadm.wellFormed (.answered op result) (List.mem_append_right _ List.mem_cons_self))
      (hadm.fresh_of_knows hknows) hstep hcap
  · intro jobs now rs server' hstep hadm
    have hwf : (Op.enqueue jobs now).WellFormed :=
      hadm.wellFormed _ (List.mem_append_right _ List.mem_cons_self)
    have hfresh : a.Fresh jobs := hadm.fresh_of_knows hknows
    exact ⟨fun before job after hjobs => hshows.answeredAt hwf hfresh hstep hjobs,
      hshows.answered_alone hwf hfresh hstep⟩

end Depth

/-- A job for a queue that takes one job. -/
def cappedJob (id : String) : PreparedJob where
  id := id
  req := { queue := "emails", jobType := "send" }
  limits := { priority := 5, maxAttempts := 3, dedupWindowMs := 60000, maxQueueDepth := some 1 }

open WireFormat Server in
/-- A second job does not fit. -/
theorem depth_capped_cappedJob :
    (performAll [.enqueue [cappedJob "a"] 1000] {}).2.indexes.liveDepth "emails" =
      (performAll [.enqueue [cappedJob "a"] 1000] {}).2.rows.countIn "emails" .jobs ∧
    ((performAll [.enqueue [cappedJob "a"] 1000] {}).2.perform
      (.enqueue [cappedJob "b"] 2000)).2.indexes.liveDepth "emails" ≤ 1 ∧
    AnsweredAt (performAll [.enqueue [cappedJob "a"] 1000] {}).2 (cappedJob "b") 2000
      (.error (.queueFull "emails" 1)) := by
  have hrun : Run _ (performAll [.enqueue [cappedJob "a"] 1000] {}).2 :=
    Run.of_performAll (by decide) (by decide)
  have hcall : ((performAll [.enqueue [cappedJob "a"] 1000] {}).2.perform
      (.enqueue [cappedJob "b"] 2000)).1 = .answered (.enqueue [cappedJob "b"] 2000)
        (.ok (.enqueue [.error (.queueFull "emails" 1)])) := by decide +kernel
  have hadm : Admissible ((performAll [.enqueue [cappedJob "a"] 1000] {}).1 ++
      [((performAll [.enqueue [cappedJob "a"] 1000] {}).2.perform
        (.enqueue [cappedJob "b"] 2000)).1]) := admissible_perform _ _ (by decide) (by decide)
  have hstep := callStep_perform (performAll [.enqueue [cappedJob "a"] 1000] {}).2
    (.enqueue [cappedJob "b"] 2000)
  rw [hcall] at hadm hstep
  obtain ⟨hcount, hcap, hturns⟩ := Run.depth_capped hrun
  refine ⟨(hcount "emails").1, ?_, ?_⟩
  · have hbefore : (performAll [.enqueue [cappedJob "a"] 1000] {}).2.indexes.liveDepth "emails" =
        1 := by decide +kernel
    have hle := hcap [cappedJob "b"] 2000 _ _ _ (.inl rfl) hstep hadm "emails" 1 (by decide)
    rw [hbefore] at hle
    exact hle
  · obtain ⟨rs₁, r, rs₂, mid, hrs, hlength, hmid, -, hanswered⟩ :=
      (hturns _ _ _ _ hstep hadm).1 [] (cappedJob "b") [] rfl
    obtain rfl := List.eq_nil_of_length_eq_zero hlength
    obtain ⟨rfl, rfl⟩ := List.cons.inj hrs
    obtain rfl : (performAll [.enqueue [cappedJob "a"] 1000] {}).2 = mid :=
      congrArg Prod.snd hmid
    exact hanswered

end Sepp
