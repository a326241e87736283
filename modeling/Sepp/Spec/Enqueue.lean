import Sepp.Library.Realize
import Sepp.Spec.Event
import Sepp.Spec.Queues

/-!
# The answers to a batch

A job of a best-effort batch is answered by the first check that applies: its queue is closing, it
hits a live record of its idempotency key, its queue is full, or it is inserted. Whether a queue
is full is asked at the turn of the job, so the jobs inserted before it in the same batch count.

## Main definitions

* `EnqueueTurn` — the answer to a job and the state after it.
* `AcceptTurn` — the answer to a job of an admitted batch.

## Main results

* `EnqueueTurn.live_eq` — what a turn adds to the depth of a queue.
-/

namespace Sepp

/-- The state after the insertion of a job. -/
def Image.insertJob [Prost] (a : Image) (job : PreparedJob) (hq : FitsPrefix job.req.queue)
    (now : Stamp) : Image :=
  (a.setJob job.id (some (job.fresh hq now))).rememberJob job hq now

/-- The job was inserted. -/
def EnqueueResult.admitted : EnqueueResult → Bool
  | .ok resp => !resp.deduplicated
  | .error _ => false

section Turns

variable [Prost]

/-- The answer to a job of a best-effort batch, and the state after it. -/
inductive EnqueueTurn (now : Stamp) (a : Image) (job : PreparedJob) : EnqueueResult → Image → Prop
  | closing (hclosing : a.Closing job.req.queue now) :
      EnqueueTurn now a job (.error (.queueClosing job.req.queue)) a
  | hit (hopen : ¬ a.Closing job.req.queue now) (hq : FitsPrefix job.req.queue) {key : String}
      {d : DedupState} (hkey : job.req.idempotencyKey = some key)
      (hd : a.dedup (⟨job.req.queue, hq⟩, key) = some d) (hlive : d.Live now) :
      EnqueueTurn now a job (.ok { jobId := d.jobId, deduplicated := true }) a
  | full (hopen : ¬ a.Closing job.req.queue now) (hq : FitsPrefix job.req.queue)
      (hunseen : a.Unseen job hq now) {cap : UInt64} (hcap : job.limits.maxQueueDepth = some cap)
      (hfull : cap.toNat ≤ a.live job.req.queue) :
      EnqueueTurn now a job (.error (.queueFull job.req.queue cap)) a
  | insert (hopen : ¬ a.Closing job.req.queue now) (hq : FitsPrefix job.req.queue)
      (hnew : a.jobs job.id = none) (hunseen : a.Unseen job hq now)
      (hroom : ∀ cap, job.limits.maxQueueDepth = some cap →
        a.live job.req.queue < cap.toNat) :
      EnqueueTurn now a job (.ok { jobId := job.id, deduplicated := false })
        (a.insertJob job hq now)

/-- The answer to a job of an admitted batch, and the state after it. -/
inductive AcceptTurn (now : Stamp) (a : Image) (job : PreparedJob) :
    EnqueueResponse → Image → Prop
  | hit (hq : FitsPrefix job.req.queue) {key : String} {d : DedupState}
      (hkey : job.req.idempotencyKey = some key)
      (hd : a.dedup (⟨job.req.queue, hq⟩, key) = some d) (hlive : d.Live now) :
      AcceptTurn now a job { jobId := d.jobId, deduplicated := true } a
  | insert (hq : FitsPrefix job.req.queue) (hnew : a.jobs job.id = none)
      (hunseen : a.Unseen job hq now) :
      AcceptTurn now a job { jobId := job.id, deduplicated := false } (a.insertJob job hq now)

variable {now : Stamp} {a a' : Image} {job : PreparedJob} {hq : FitsPrefix job.req.queue}

theorem Image.insertJob_closing (a : Image) (job : PreparedJob) (hq : FitsPrefix job.req.queue)
    (now : Stamp) : (a.insertJob job hq now).closing = a.closing := by
  rw [insertJob, rememberJob]
  split <;> rfl

theorem Image.insertJob_jobs (a : Image) (job : PreparedJob) (hq : FitsPrefix job.req.queue)
    (now : Stamp) :
    (a.insertJob job hq now).jobs = Function.update a.jobs job.id (some (job.fresh hq now)) := by
  rw [insertJob, rememberJob_jobs, setJob_jobs]

omit [Prost] in
/-- The job is live and of the queue. -/
def JobState.LiveIn (queue _id : String) (js : JobState) : Prop :=
  js.content.queue = queue ∧ ¬ js.place.IsDead

theorem PreparedJob.fresh_not_isDead (job : PreparedJob) (hq : FitsPrefix job.req.queue)
    (now : Stamp) : ¬ (job.fresh hq now).place.IsDead := by
  rw [PreparedJob.fresh, PreparedJob.firstPlace]
  split
  · split_ifs <;> exact fun h => h
  · exact fun h => h

/-- An insertion adds one to the depth of its queue. -/
theorem Image.live_insertJob (hfin : { id | a.jobs id ≠ none }.Finite)
    (hnew : a.jobs job.id = none) (queue : String) :
    (a.insertJob job hq now).live queue =
      a.live queue + if job.req.queue = queue then 1 else 0 := by
  have hupdate := census_update (P := JobState.LiveIn queue) hfin job.id (some (job.fresh hq now))
  rw [hnew, tick_none, ← insertJob_jobs] at hupdate
  change (a.insertJob job hq now).live queue + 0 = a.live queue + _ at hupdate
  rw [Nat.add_zero] at hupdate
  rw [hupdate]
  congr 1
  split_ifs with hqueue
  · exact tick_of_pos ⟨hqueue, job.fresh_not_isDead hq now⟩
  · exact tick_of_neg fun h => hqueue h.1

theorem Image.finite_insertJob (hfin : { id | a.jobs id ≠ none }.Finite) :
    { id | (a.insertJob job hq now).jobs id ≠ none }.Finite := by
  refine (hfin.insert job.id).subset fun id hid => ?_
  by_cases hne : id = job.id
  · exact .inl hne
  · rw [Set.mem_ofPred_eq, insertJob_jobs, Function.update_of_ne hne] at hid
    exact .inr hid

/-! ### The depth of a queue -/

variable {r : EnqueueResult} {resp : EnqueueResponse}

theorem EnqueueTurn.finite (h : EnqueueTurn now a job r a')
    (hfin : { id | a.jobs id ≠ none }.Finite) : { id | a'.jobs id ≠ none }.Finite := by
  cases h with
  | closing | hit | full => exact hfin
  | insert => exact Image.finite_insertJob hfin

/-- A turn adds the job that it inserts to the depth of its queue. -/
theorem EnqueueTurn.live_eq (h : EnqueueTurn now a job r a')
    (hfin : { id | a.jobs id ≠ none }.Finite) (queue : String) :
    a'.live queue =
      a.live queue + if job.req.queue = queue ∧ r.admitted = true then 1 else 0 := by
  cases h with
  | closing | hit | full => simp [EnqueueResult.admitted]
  | insert hopen hq hnew hunseen hroom =>
    rw [Image.live_insertJob hfin hnew]
    simp [EnqueueResult.admitted]

omit [Prost] in
/-- The jobs of the queue that were inserted. -/
def admittedIn (queue : String) (jobs : List PreparedJob) (results : List EnqueueResult) : ℕ :=
  (jobs.zip results).countP fun (job, r) => job.req.queue = queue ∧ r.admitted = true

variable {jobs : List PreparedJob} {rs : List EnqueueResult} {resps : List EnqueueResponse}

/-- At any turn of a batch the depth counts the jobs inserted before. -/
theorem live_eq_of_turns (h : Chained (EnqueueTurn now) a jobs rs a')
    (hfin : { id | a.jobs id ≠ none }.Finite) (queue : String) :
    a'.live queue = a.live queue + admittedIn queue jobs rs := by
  induction h with
  | nil => rfl
  | cons hturn _ ih =>
    rw [ih (hturn.finite hfin), hturn.live_eq hfin, admittedIn, admittedIn, List.zip_cons_cons,
      List.countP_cons]
    simp only [decide_eq_true_eq]
    omega

/-- A batch does not push a queue past the cap of its jobs. -/
theorem live_le_of_turns (h : Chained (EnqueueTurn now) a jobs rs a')
    (hfin : { id | a.jobs id ≠ none }.Finite) {queue : String} {cap : UInt64}
    (hcap : ∀ job ∈ jobs, job.req.queue = queue → job.limits.maxQueueDepth = some cap) :
    a'.live queue ≤ max (a.live queue) cap.toNat := by
  induction h with
  | nil => exact le_max_left _ _
  | @cons a b _ job r jobs rs hturn _ ih =>
    have hrest := ih (hturn.finite hfin) fun job' hjob' => hcap job' (List.mem_cons_of_mem _ hjob')
    have hone : b.live queue ≤ max (a.live queue) cap.toNat := by
      rw [hturn.live_eq hfin]
      split_ifs with hadmitted
      · cases hturn with
        | closing | hit | full => simp [EnqueueResult.admitted] at hadmitted
        | insert hopen hq hnew hunseen hroom =>
          have hlt := hroom cap (hcap job List.mem_cons_self hadmitted.1)
          rw [hadmitted.1] at hlt
          omega
      · exact le_max_left _ _
    omega

theorem AcceptTurn.finite (h : AcceptTurn now a job resp a')
    (hfin : { id | a.jobs id ≠ none }.Finite) : { id | a'.jobs id ≠ none }.Finite := by
  cases h with
  | hit => exact hfin
  | insert => exact Image.finite_insertJob hfin

theorem AcceptTurn.live_le (h : AcceptTurn now a job resp a')
    (hfin : { id | a.jobs id ≠ none }.Finite) (queue : String) :
    a'.live queue ≤ a.live queue + if job.req.queue = queue then 1 else 0 := by
  cases h with
  | hit => exact Nat.le_add_right _ _
  | insert hq hnew hunseen => exact (Image.live_insertJob hfin hnew queue).le

/-- An admitted batch adds at most as many jobs as it has. -/
theorem live_le_of_accepted (h : Chained (AcceptTurn now) a jobs resps a')
    (hfin : { id | a.jobs id ≠ none }.Finite) (queue : String) :
    a'.live queue ≤ a.live queue + jobs.countP fun job => job.req.queue = queue := by
  induction h with
  | nil => exact Nat.le_add_right _ _
  | cons hturn _ ih =>
    have hone := hturn.live_le hfin queue
    have hrest := ih (hturn.finite hfin)
    rw [List.countP_cons]
    simp only [decide_eq_true_eq]
    omega

/-! ### A turn has one answer -/

/-- The answer to a job, and the state after it, are determined. -/
theorem EnqueueTurn.det {r' : EnqueueResult} {b : Image} (h : EnqueueTurn now a job r a')
    (h' : EnqueueTurn now a job r' b) : r = r' ∧ a' = b := by
  cases h with
  | closing hclosing =>
    cases h' with
    | closing => exact ⟨rfl, rfl⟩
    | hit hopen | full hopen | insert hopen => exact absurd hclosing hopen
  | hit hopen hq hkey hd hlive =>
    cases h' with
    | closing hclosing => exact absurd hclosing hopen
    | hit _ _ hkey' hd' =>
      obtain rfl := Option.some.inj (hkey.symm.trans hkey')
      obtain rfl := Option.some.inj (hd.symm.trans hd')
      exact ⟨rfl, rfl⟩
    | full _ _ hunseen => exact absurd hlive (hunseen _ _ hkey hd)
    | insert _ _ _ hunseen => exact absurd hlive (hunseen _ _ hkey hd)
  | full hopen hq hunseen hcap hfull =>
    cases h' with
    | closing hclosing => exact absurd hclosing hopen
    | hit _ _ hkey hd hlive => exact absurd hlive (hunseen _ _ hkey hd)
    | full _ _ _ hcap' =>
      obtain rfl := Option.some.inj (hcap.symm.trans hcap')
      exact ⟨rfl, rfl⟩
    | insert _ _ _ _ hroom => exact absurd (hroom _ hcap) (by omega)
  | insert hopen hq hnew hunseen hroom =>
    cases h' with
    | closing hclosing => exact absurd hclosing hopen
    | hit _ _ hkey hd hlive => exact absurd hlive (hunseen _ _ hkey hd)
    | full _ _ _ hcap hfull => exact absurd (hroom _ hcap) (by omega)
    | insert => exact ⟨rfl, rfl⟩

theorem turns_det {rs' : List EnqueueResult} {b : Image}
    (h : Chained (EnqueueTurn now) a jobs rs a') (h' : Chained (EnqueueTurn now) a jobs rs' b) :
    rs = rs' ∧ a' = b := by
  induction h generalizing rs' with
  | nil =>
    cases h'
    exact ⟨rfl, rfl⟩
  | cons hturn _ ih =>
    cases h' with
    | cons hturn' hrest' =>
      obtain ⟨rfl, rfl⟩ := hturn.det hturn'
      obtain ⟨rfl, rfl⟩ := ih hrest'
      exact ⟨rfl, rfl⟩

/-! ### Queues do not affect each other -/

/-- What the answers to jobs of the queue depend on. -/
structure Image.AgreeOn (queue : String) (a b : Image) : Prop where
  closing : a.closing queue = b.closing queue
  dedup : ∀ name : DedupName, name.1 = queue → a.dedup name = b.dedup name
  live : a.live queue = b.live queue

omit [Prost] in
theorem Image.AgreeOn.refl (queue : String) (a : Image) : a.AgreeOn queue a :=
  ⟨rfl, fun _ _ => rfl, rfl⟩

theorem Image.insertJob_dedup_of_ne {name : DedupName} (hname : name.1 ≠ job.req.queue) :
    (a.insertJob job hq now).dedup name = a.dedup name := by
  rw [insertJob, rememberJob]
  split
  · rw [setDedup_dedup, Function.update_of_ne]
    · rfl
    · rintro rfl
      exact hname rfl
  · rfl

/-- A job of another queue changes nothing that the queue depends on. -/
theorem EnqueueTurn.agreeOn_of_ne {queue : String} {b : Image} (h : EnqueueTurn now a job r a')
    (hfin : { id | a.jobs id ≠ none }.Finite) (hne : job.req.queue ≠ queue)
    (hab : a.AgreeOn queue b) : a'.AgreeOn queue b := by
  have hlive := h.live_eq hfin queue
  rw [if_neg fun hadmitted => hne hadmitted.1, Nat.add_zero] at hlive
  cases h with
  | closing | hit | full => exact hab
  | insert hopen hq =>
    refine ⟨?_, fun name hname => ?_, hlive.trans hab.live⟩
    · rw [Image.insertJob_closing]
      exact hab.closing
    · rw [Image.insertJob_dedup_of_ne fun heq => hne (heq.symm.trans hname)]
      exact hab.dedup name hname

/-- A job of the queue has the same answer in two states that agree on the queue. -/
theorem EnqueueTurn.of_agreeOn {b : Image} (h : EnqueueTurn now a job r a')
    (hfin : { id | a.jobs id ≠ none }.Finite) (hfin' : { id | b.jobs id ≠ none }.Finite)
    (hab : a.AgreeOn job.req.queue b) (hnew : b.jobs job.id = none) :
    ∃ b', EnqueueTurn now b job r b' ∧ a'.AgreeOn job.req.queue b' := by
  have hclosing : b.Closing job.req.queue now ↔ a.Closing job.req.queue now := by
    rw [Image.Closing, Image.Closing, hab.closing]
  have hunseen : ∀ hq : FitsPrefix job.req.queue, a.Unseen job hq now → b.Unseen job hq now :=
    fun hq hunseen key d hkey hd => hunseen key d hkey (by rw [hab.dedup _ rfl]; exact hd)
  cases h with
  | closing hc => exact ⟨b, .closing (hclosing.mpr hc), hab⟩
  | hit hopen hq hkey hd hlive =>
    rw [hab.dedup _ rfl] at hd
    exact ⟨b, .hit (mt hclosing.mp hopen) hq hkey hd hlive, hab⟩
  | full hopen hq hun hcap hfull =>
    rw [hab.live] at hfull
    exact ⟨b, .full (mt hclosing.mp hopen) hq (hunseen hq hun) hcap hfull, hab⟩
  | insert hopen hq hnew' hun hroom =>
    rw [hab.live] at hroom
    refine ⟨_, .insert (mt hclosing.mp hopen) hq hnew (hunseen hq hun) hroom, ?_, ?_, ?_⟩
    · rw [Image.insertJob_closing, Image.insertJob_closing, hab.closing]
    · intro name hname
      rw [Image.insertJob, Image.insertJob, Image.rememberJob, Image.rememberJob]
      split
      · rename_i key _
        rw [Image.setDedup_dedup, Image.setDedup_dedup]
        by_cases heq : name = (⟨job.req.queue, hq⟩, key)
        · rw [heq, Function.update_self, Function.update_self]
        · rw [Function.update_of_ne heq, Function.update_of_ne heq]
          exact hab.dedup name hname
      · exact hab.dedup name hname
    · rw [Image.live_insertJob hfin hnew', Image.live_insertJob hfin' hnew, hab.live]

/-- A turn leaves the other jobs alone. -/
theorem EnqueueTurn.jobs_of_ne (h : EnqueueTurn now a job r a') {id : String} (hne : id ≠ job.id) :
    a'.jobs id = a.jobs id := by
  cases h with
  | closing | hit | full => rfl
  | insert => rw [Image.insertJob_jobs, Function.update_of_ne hne]

omit [Prost] in
/-- The jobs still to be enqueued are new, and different from each other. -/
def Image.Fresh (a : Image) (jobs : List PreparedJob) : Prop :=
  (jobs.map PreparedJob.id).Nodup ∧ ∀ job ∈ jobs, a.jobs job.id = none

omit [Prost] in
theorem Image.Fresh.sublist {jobs' : List PreparedJob} (h : a.Fresh jobs)
    (hsub : List.Sublist jobs' jobs) : a.Fresh jobs' :=
  ⟨h.1.sublist (hsub.map _), fun job hjob => h.2 job (hsub.subset hjob)⟩

theorem EnqueueTurn.fresh (h : EnqueueTurn now a job r a') (hfresh : a.Fresh (job :: jobs)) :
    a'.Fresh jobs := by
  obtain ⟨hnodup, hnew⟩ := hfresh
  rw [List.map_cons, List.nodup_cons] at hnodup
  refine ⟨hnodup.2, fun job' hjob' => ?_⟩
  rw [h.jobs_of_ne fun heq => hnodup.1 (heq ▸ List.mem_map_of_mem hjob')]
  exact hnew job' (List.mem_cons_of_mem _ hjob')

omit [Prost] in
/-- The results of the jobs that go to the queue. -/
def resultsIn (queue : String) (jobs : List PreparedJob) (results : List EnqueueResult) :
    List EnqueueResult :=
  ((jobs.zip results).filter fun entry => entry.1.req.queue = queue).map Prod.snd

/-- The jobs of one queue are answered as if there were no others in the batch. -/
theorem turns_filter {queue : String} {b : Image} (h : Chained (EnqueueTurn now) a jobs rs a')
    (hfin : { id | a.jobs id ≠ none }.Finite) (hfin' : { id | b.jobs id ≠ none }.Finite)
    (hab : a.AgreeOn queue b) (hfresh : b.Fresh jobs) :
    ∃ b', Chained (EnqueueTurn now) b (jobs.filter fun job => job.req.queue = queue)
      (resultsIn queue jobs rs) b' := by
  induction h generalizing b with
  | nil => exact ⟨b, .nil b⟩
  | @cons a mid _ job r jobs rs hturn _ ih =>
    by_cases hqueue : job.req.queue = queue
    · subst hqueue
      obtain ⟨b₁, hturn', hagree⟩ :=
        hturn.of_agreeOn hfin hfin' hab (hfresh.2 job List.mem_cons_self)
      obtain ⟨b', hrest⟩ := ih (hturn.finite hfin) (hturn'.finite hfin') hagree
        (hturn'.fresh hfresh)
      refine ⟨b', ?_⟩
      rw [List.filter_cons_of_pos (by simp), resultsIn, List.zip_cons_cons,
        List.filter_cons_of_pos (by simp)]
      exact .cons hturn' hrest
    · obtain ⟨b', hrest⟩ := ih (hturn.finite hfin) hfin'
        (hturn.agreeOn_of_ne hfin hqueue hab) (hfresh.sublist (List.sublist_cons_self job jobs))
      refine ⟨b', ?_⟩
      rw [List.filter_cons_of_neg (by simpa using hqueue), resultsIn, List.zip_cons_cons,
        List.filter_cons_of_neg (by simpa using hqueue)]
      exact hrest

end Turns

end Sepp
