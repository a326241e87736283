import Sepp.Run.Deliveries
import Sepp.Spec.Lifecycle
import Sepp.Spec.Standing
import Sepp.Wire.Codec

/-!
# The attempts of a job

From its insertion, or from the time it is put back in line, a job is delivered on the attempts
one, two, three and so on, and never on more attempts than its limit. The attempt is a value that
moves with the job through the ready, scheduled and inflight rows and the ready index; the
invariant is that the attempts delivered since the last birth are the ones before the attempt that
the job waits for, or up to the one that it is leased on.

## Main definitions

* `Place.attempt`, `Place.deliveries` — the attempt of a place, and the deliveries behind it.
* `Disciplined` — the invariant, for one job.

## Main results

* `Disciplined.step`, `disciplined_of_trace` — the invariant holds in every run of events.
-/

namespace Sepp

/-- The attempts one to `n`. -/
def upTo (n : ℕ) : List UInt32 := (List.range n).map fun i => UInt32.ofNat (i + 1)

theorem upTo_succ (n : ℕ) : upTo (n + 1) = upTo n ++ [UInt32.ofNat (n + 1)] := by
  simp [upTo, List.range_succ]

namespace Place

/-- The attempt that a job is on. -/
def attempt : Place → UInt32
  | limbo => 0
  | ready n | scheduled n _ | leased n _ | dead n _ _ _ => n

/-- The deliveries since the last birth of a job: an attempt that is waited for, and one that was
given up from waiting, has not been delivered. -/
def deliveries : Place → ℕ
  | limbo => 0
  | ready n | scheduled n _ => n.toNat - 1
  | leased n _ => n.toNat
  | dead n _ cause _ => if cause = .admin then n.toNat - 1 else n.toNat

end Place

/-- The deliveries of the job `id` since its last birth are as its place says, and within its
limit `m`; a job with the limit zero, which admission never lets in, is still delivered once. -/
structure Disciplined (id : String) (m : UInt32) (evs : List Event) (x : Option JobState) :
    Prop where
  counted : ∃ k ≤ max 1 m.toNat, attemptsSince id evs = upTo k
  standing : ∀ js, x = some js → js.content.maxAttempts = m ∧
    1 ≤ js.place.attempt.toNat ∧ js.place.attempt.toNat ≤ max 1 m.toNat ∧
    attemptsSince id evs = upTo js.place.deliveries

theorem toNat_succ_of_lt {n m : UInt32} (h : n < m) : (n + 1).toNat = n.toNat + 1 := by
  have hlt : n.toNat < m.toNat := h
  have hm := m.toNat_lt
  rw [UInt32.toNat_add, UInt32.toNat_one]
  omega

/-- An event that neither starts the job over nor delivers it. -/
theorem attemptsSince_of_silent {id : String} {e : Event} (hbirth : e.birth? ≠ some id)
    (hdelivery : e.attemptsTo id = []) (evs : List Event) :
    attemptsSince id (evs ++ [e]) = attemptsSince id evs := by
  rw [attemptsSince_concat, if_neg hbirth, hdelivery, List.append_nil]

theorem Event.attemptsTo_of_other {id : String} {e : Event} (he : e.jobId? ≠ some id) :
    e.attemptsTo id = [] := by
  cases e with
  | lease job expires => exact if_neg fun heq => he (congrArg some heq)
  | _ => rfl

/-- An event about other jobs says nothing about the deliveries of this one. -/
theorem attemptsSince_of_other {id : String} {e : Event} (he : e.jobId? ≠ some id)
    (evs : List Event) : attemptsSince id (evs ++ [e]) = attemptsSince id evs := by
  refine attemptsSince_of_silent ?_ (Event.attemptsTo_of_other he) evs
  cases e with
  | insert | requeue => exact he
  | _ => simp [Event.birth?]

/-- A job that is given up keeps its attempt, and has been delivered as often as before. -/
theorem JobState.GivenUp.attempt_eq {js : JobState} {n : UInt32} {now : Int64}
    {cause : DeadLetterCause} (h : js.GivenUp n now cause) (reason : Option String) :
    n = js.place.attempt ∧ (Place.dead n now cause reason).deliveries = js.place.deliveries := by
  cases cause with
  | unspecified => exact h.elim
  | admin => rcases h with h | ⟨deadline, h⟩ <;> rw [h] <;> exact ⟨rfl, rfl⟩
  | rejected =>
    obtain ⟨expires, h⟩ := h
    rw [h]
    exact ⟨rfl, rfl⟩
  | attemptsExhausted =>
    obtain ⟨-, expires, h⟩ := h
    rw [h]
    exact ⟨rfl, rfl⟩
  | leaseExpired =>
    obtain ⟨-, expires, h, -⟩ := h
    rw [h]
    exact ⟨rfl, rfl⟩

theorem PreparedJob.firstPlace_waits [Prost] (job : PreparedJob) (now : Int64) :
    (job.firstPlace now).Waits 1 := by
  rw [PreparedJob.firstPlace]
  split
  · split_ifs
    · exact .inr ⟨_, rfl⟩
    · exact .inl rfl
  · exact .inl rfl

namespace Disciplined

variable {id : String} {m : UInt32} {evs : List Event} {e : Event} {js js' : JobState}
  {x : Option JobState}

/-- The job keeps its deliveries and its limit when it moves without being delivered. -/
theorem move (h : Disciplined id m evs (some js)) (hbirth : e.birth? = none)
    (hdelivery : e.attemptsTo id = []) (hcontent : js'.content = js.content)
    (hone : 1 ≤ js'.place.attempt.toNat) (hle : js'.place.attempt.toNat ≤ max 1 m.toNat)
    (hdel : js'.place.deliveries = js.place.deliveries) :
    Disciplined id m (evs ++ [e]) (some js') := by
  have hsame := attemptsSince_of_silent (show e.birth? ≠ some id by simp [hbirth]) hdelivery evs
  obtain ⟨hlimit, -, -, hhist⟩ := h.standing js rfl
  refine ⟨hsame ▸ h.counted, fun js₁ hjs₁ => ?_⟩
  obtain rfl := Option.some.inj hjs₁
  rw [hcontent, hsame, hdel]
  exact ⟨hlimit, hone, hle, hhist⟩

/-- The job goes. -/
theorem gone (h : Disciplined id m evs x) (hbirth : e.birth? = none)
    (hdelivery : e.attemptsTo id = []) : Disciplined id m (evs ++ [e]) none := by
  have hsame := attemptsSince_of_silent (show e.birth? ≠ some id by simp [hbirth]) hdelivery evs
  exact ⟨hsame ▸ h.counted, fun js hjs => by cases hjs⟩

/-- The job starts over, on its first attempt. -/
theorem born (hbirth : e.birth? = some id) (hlimit : js'.content.maxAttempts = m)
    (hplace : js'.place.Waits 1) : Disciplined id m (evs ++ [e]) (some js') := by
  have hnone : attemptsSince id (evs ++ [e]) = [] := by
    rw [attemptsSince_concat, if_pos hbirth]
  refine ⟨⟨0, Nat.zero_le _, hnone⟩, fun js hjs => ?_⟩
  obtain rfl := Option.some.inj hjs
  rcases hplace with hp | ⟨deadline, hp⟩
  all_goals
    rw [hp, hnone]
    exact ⟨hlimit, le_rfl, le_max_left .., rfl⟩

/-- The job is delivered on the attempt that it waits for. -/
theorem delivered (h : Disciplined id m evs (some js)) {n : UInt32} {expires : Int64}
    (hplace : js.place = .ready n) (hbirth : e.birth? = none) (hdelivery : e.attemptsTo id = [n]) :
    Disciplined id m (evs ++ [e]) (some { js with place := .leased n expires }) := by
  obtain ⟨hlimit, hone, hle, hhist⟩ := h.standing js rfl
  rw [hplace] at hone hle hhist
  have hpos : n.toNat - 1 + 1 = n.toNat := Nat.sub_add_cancel hone
  have hnow : attemptsSince id (evs ++ [e]) = upTo n.toNat := by
    rw [attemptsSince_concat, if_neg (by simp [hbirth]), hdelivery, hhist, ← hpos, upTo_succ]
    simp only [Place.deliveries, hpos, UInt32.ofNat_toNat]
  refine ⟨⟨n.toNat, hle, hnow⟩, fun js₁ hjs₁ => ?_⟩
  obtain rfl := Option.some.inj hjs₁
  exact ⟨hlimit, hone, hle, hnow⟩

variable [Prost] {x' : Option JobState}

/-- A step keeps the discipline, when the job can only be inserted with its limit. -/
theorem step (h : Disciplined id m evs x) (hstep : JobStep id x e x')
    (hinsert : ∀ job now, e = .insert job now → job.id = id → job.limits.maxAttempts = m) :
    Disciplined id m (evs ++ [e]) x' := by
  cases hstep with
  | other hid =>
    have hsame := attemptsSince_of_other hid evs
    exact ⟨hsame ▸ h.counted, hsame ▸ h.standing⟩
  | @insert job now hq hid =>
    exact born (congrArg some hid) (hinsert job now rfl hid) (job.firstPlace_waits now)
  | lease hplace => exact h.delivered hplace rfl (if_pos rfl)
  | ack | drop | discard | purge => exact h.gone rfl rfl
  | @retry js n expires hplace hleft delayed =>
    obtain ⟨rfl, hone, -, -⟩ := h.standing js rfl
    have hsucc := toNat_succ_of_lt hleft
    have hlt : n.toNat < js.content.maxAttempts.toNat := hleft
    refine h.move rfl rfl rfl ?_ ?_ ?_
    all_goals
      cases delayed <;>
        simp only [Place.retried, Place.attempt, Place.deliveries, hplace, hsucc] <;> omega
  | @extend js n expires hplace expires' =>
    obtain ⟨-, hone, hle, -⟩ := h.standing js rfl
    rw [hplace] at hone hle
    exact h.move rfl rfl rfl hone hle (by rw [hplace]; rfl)
  | @promote js n deadline now hplace hdue =>
    obtain ⟨-, hone, hle, -⟩ := h.standing js rfl
    rw [hplace] at hone hle
    exact h.move rfl rfl rfl hone hle (by rw [hplace]; rfl)
  | @redeliver js n expires now hplace hdue hleft =>
    obtain ⟨rfl, hone, -, -⟩ := h.standing js rfl
    have hsucc := toNat_succ_of_lt hleft
    have hlt : n.toNat < js.content.maxAttempts.toNat := hleft
    refine h.move rfl rfl rfl ?_ ?_ ?_
    all_goals
      simp only [Place.attempt, Place.deliveries, hplace, hsucc]
      omega
  | @keep js n failedAt cause hgiven reason =>
    obtain ⟨-, hone, hle, -⟩ := h.standing js rfl
    obtain ⟨hattempt, hdel⟩ := hgiven.attempt_eq reason
    rw [← hattempt] at hone hle
    exact h.move rfl rfl rfl hone hle hdel
  | requeue hplace now => exact born rfl (h.standing _ rfl).1 (.inl rfl)

end Disciplined

/-- The discipline holds in every run of events that inserts the job with one limit only. -/
theorem disciplined_of_trace [Prost] {id : String} {m : UInt32} {evs : List Event} {a : Image}
    (h : Trace Step Image.empty evs a)
    (hinsert : ∀ job now, .insert job now ∈ evs → job.id = id → job.limits.maxAttempts = m) :
    Disciplined id m evs (a.jobs id) := by
  refine Trace.history (P := fun evs x =>
    (∀ job now, .insert job now ∈ evs → job.id = id → job.limits.maxAttempts = m) →
      Disciplined id m evs x) (fun _ => ?_) (fun evs e x x' _ ih hstep hins => ?_)
    (jobs_of_trace h id) hinsert
  · exact ⟨⟨0, Nat.zero_le _, rfl⟩, fun js hjs => by cases hjs⟩
  · refine (ih fun job now hmem => hins job now (List.mem_append_left _ hmem)).step hstep ?_
    rintro job now rfl
    exact hins job now (List.mem_append_right _ List.mem_cons_self)

/-! ### What a call does to the attempt -/

section Laws

variable [Prost]

/-- The job is given up on the attempt: it has no record any more, and a dead letter with that
final attempt if it is kept. -/
def Rows.GivesUp (rows : Rows) (id : String) (attempt : UInt32) (kept : Prop) : Prop :=
  asBytes id ∉ rows.jobs ∧ (kept → ∃ record, rows.Buried id record ∧ record.finalAttempt = attempt)

/-- The job waits for the attempt after this one, and the counter has not wrapped. -/
def Rows.TriesAgain (rows : Rows) (id : String) (attempt : UInt32) : Prop :=
  rows.Waits id (attempt + 1) ∧ (attempt + 1).toNat = attempt.toNat + 1

/-- What a call does to the attempt of a job with the limit `m`, by the rows before and after. -/
def Call.KeepsAttempts (id : String) (m : UInt32) (before after : Rows) : Call → Prop
  | answered (.nack req _ kept _) (.ok (.nack r)) => req.jobId = id →
    before.Leased id req.attempt ∧
      (r.deadLettered = true ↔ forcesDeadLetter req = true ∨ m ≤ req.attempt) ∧
      if r.deadLettered then after.GivesUp id req.attempt (kept = true)
      else after.TriesAgain id req.attempt
  | answered (.sweep now _ cutoff kept) (.ok _) =>
    (∀ n, before.Waits id n → after.Waits id n) ∧
      ∀ n expires, before.LeasedUntil id n expires →
        after.LeasedUntil id n expires ∨ ¬ now < expires ∧
          if m ≤ n then
            after.GivesUp id n (kept = true ∧ ∀ limit, cutoff = some limit → limit < now)
          else after.TriesAgain id n
  | answered (.deadLetterJobs _ _ _ _ kept _) (.ok _) => ∀ n, before.Waits id n →
    after.Waits id n ∨ after.GivesUp id n (kept = true)
  | answered (.extend ..) (.ok _) =>
    (∀ n, before.Waits id n → after.Waits id n) ∧ ∀ n, before.Leased id n → after.Leased id n
  | restart => after = before
  | _ => True

/-- What a sweep does to a job, one step at a time. -/
theorem JobStep.sweep_cases {id : String} {x x' : Option JobState} {e : Event} {now : Int64}
    {cutoff : Option Int64} {kept : Bool} (h : JobStep id x e x') (he : SweepEvent now cutoff kept e) :
    x' = x ∨
    (∃ js n deadline, x = some js ∧ js.place = .scheduled n deadline ∧
      x' = some { js with place := .ready n }) ∨
    (∃ js n expires, x = some js ∧ js.place = .leased n expires ∧ ¬ now < expires ∧
      (n < js.content.maxAttempts ∧ x' = some { js with place := .ready (n + 1) } ∨
        js.content.maxAttempts ≤ n ∧
          x' = if kept then some { js with place := .dead n now .leaseExpired none } else none)) ∨
    ∃ js n failedAt cause reason limit, x = some js ∧ js.place = .dead n failedAt cause reason ∧
      cutoff = some limit ∧ ¬ limit < failedAt ∧ x' = none := by
  cases h with
  | other => exact .inl rfl
  | insert | lease | ack | retry | extend | requeue | purge => cases he
  | promote hplace =>
    cases he
    exact .inr (.inl ⟨_, _, _, rfl, hplace, rfl⟩)
  | redeliver hplace hdue hleft =>
    cases he
    exact .inr (.inr (.inl ⟨_, _, _, rfl, hplace, hdue, .inl ⟨hleft, rfl⟩⟩))
  | keep hgiven =>
    cases he
    obtain ⟨hmax, expires, hplace, hdue⟩ := hgiven
    exact .inr (.inr (.inl ⟨_, _, _, rfl, hplace, hdue, .inr ⟨hmax, rfl⟩⟩))
  | drop hgiven =>
    cases he
    obtain ⟨hmax, expires, hplace, hdue⟩ := hgiven
    exact .inr (.inr (.inl ⟨_, _, _, rfl, hplace, hdue, .inr ⟨hmax, rfl⟩⟩))
  | discard hplace =>
    cases he with
    | discard _ _ _ _ hcutoff hdue =>
      rw [JobState.deadKey, DeadLetterKey.deadlineOf_encode] at hdue
      exact .inr (.inr (.inr ⟨_, _, _, _, _, _, rfl, hplace, hcutoff, hdue, rfl⟩))

section Jobs

variable {id : String} {m n : UInt32} {x x' : Option JobState} {js : JobState} {evs : List Event}
  {now : Int64} {cutoff : Option Int64} {kept : Bool}

/-- A sweep leaves a waiting job waiting for the same attempt. -/
theorem sweep_waits (h : Trace (JobStep id) x evs x')
    (hevs : ∀ e ∈ evs, SweepEvent now cutoff kept e) (hx : ∃ js, x = some js ∧ js.place.Waits n) :
    ∃ js, x' = some js ∧ js.place.Waits n := by
  refine h.preserves (P := fun x => ∃ js, x = some js ∧ js.place.Waits n)
    (fun x e x' he hstep hx => ?_) hx
  obtain ⟨js, rfl, hwaits⟩ := hx
  rcases hstep.sweep_cases (hevs e he) with rfl | ⟨js₁, k, deadline, hjs, hplace, rfl⟩ |
    ⟨js₁, k, expires, hjs, hplace, -⟩ | ⟨js₁, k, failedAt, cause, reason, limit, hjs, hplace, -⟩
  · exact ⟨js, rfl, hwaits⟩
  · obtain rfl := Option.some.inj hjs
    rcases hwaits with hready | ⟨deadline', hscheduled⟩
    · cases hready.symm.trans hplace
    · cases hscheduled.symm.trans hplace
      exact ⟨_, rfl, .inl rfl⟩
  all_goals
    obtain rfl := Option.some.inj hjs
    rcases hwaits with hready | ⟨deadline', hscheduled⟩
    · cases hready.symm.trans hplace
    · cases hscheduled.symm.trans hplace

/-- What a sweep leaves of a leased job: the lease, when it has not expired; the next attempt; or a
job given up, whose dead letter may at once be past its retention. -/
def SweptLease (now : Int64) (cutoff : Option Int64) (kept : Bool) (js : JobState) (n : UInt32)
    (expires : Int64) (x : Option JobState) : Prop :=
  x = some js ∨ ¬ now < expires ∧
    (n < js.content.maxAttempts ∧ x = some { js with place := .ready (n + 1) } ∨
      js.content.maxAttempts ≤ n ∧ (x = some { js with place := .dead n now .leaseExpired none } ∨
        x = none ∧ (kept = true → ∃ limit, cutoff = some limit ∧ ¬ limit < now)))

theorem sweep_leased {expires : Int64} (h : Trace (JobStep id) (some js) evs x')
    (hevs : ∀ e ∈ evs, SweepEvent now cutoff kept e) (hplace : js.place = .leased n expires) :
    SweptLease now cutoff kept js n expires x' := by
  refine h.preserves (fun x e x' he hstep hx => ?_) (.inl rfl)
  -- the place of the job decides which of the steps of a sweep are left
  rcases hstep.sweep_cases (hevs e he) with rfl | ⟨js₁, k, deadline, rfl, hp, -⟩ |
    ⟨js₁, k, expires₁, rfl, hp, hdue, hmove⟩ |
    ⟨js₁, k, failedAt, cause, reason, limit, rfl, hp, hcutoff, hdue, rfl⟩
  · exact hx
  · rcases hx with hx | ⟨-, ⟨-, hx⟩ | ⟨-, hx | ⟨hx, -⟩⟩⟩ <;> cases hx
    · cases hplace.symm.trans hp
    · cases hp
    · cases hp
  · rcases hx with hx | ⟨-, ⟨-, hx⟩ | ⟨-, hx | ⟨hx, -⟩⟩⟩ <;> cases hx
    · cases hplace.symm.trans hp
      refine .inr ⟨hdue, hmove.imp_right fun ⟨hmax, hx'⟩ => ⟨hmax, ?_⟩⟩
      cases kept with
      | true => exact .inl hx'
      | false => exact .inr ⟨hx', nofun⟩
    · cases hp
    · cases hp
  · rcases hx with hx | ⟨hexp, ⟨-, hx⟩ | ⟨hmax, hx | ⟨hx, -⟩⟩⟩ <;> cases hx
    · cases hplace.symm.trans hp
    · cases hp
    · cases hp
      exact .inr ⟨hexp, .inr ⟨hmax, .inr ⟨rfl, fun _ => ⟨limit, hcutoff, hdue⟩⟩⟩⟩

/-- An operator gives up a waiting job on the attempt it waits for. -/
theorem bury_waits {reason : Option String} (h : Trace (JobStep id) (some js) evs x')
    (hevs : ∀ e ∈ evs, ∃ id queue k, e = .bury id queue k now .admin reason kept)
    (hwaits : js.place.Waits n) :
    x' = some js ∨
      x' = if kept then some { js with place := .dead n now .admin reason } else none := by
  refine h.preserves (P := fun x => x = some js ∨
    x = if kept then some { js with place := .dead n now .admin reason } else none)
    (fun x e x' he hstep hx => ?_) (.inl rfl)
  obtain ⟨id', queue, k, rfl⟩ := hevs e he
  have hstays : ∀ {js₁ : JobState}, js₁.GivenUp k now .admin →
      (some js₁ = if kept then some { js with place := .dead n now .admin reason } else none) →
      False := by
    intro js₁ hgiven hjs₁
    cases kept with
    | true =>
      obtain rfl := Option.some.inj hjs₁
      rcases hgiven with hp | ⟨deadline, hp⟩ <;> cases hp
    | false => cases hjs₁
  have hattempt : js.GivenUp k now .admin → k = n := by
    intro hgiven
    rcases hwaits with hw | ⟨deadline, hw⟩ <;> rcases hgiven with hp | ⟨deadline', hp⟩ <;>
      cases hw.symm.trans hp
    · rfl
    · rfl
  cases hstep with
  | other => exact hx
  | keep hgiven =>
    rcases hx with hx | hx
    · obtain rfl := Option.some.inj hx
      obtain rfl := hattempt hgiven
      exact .inr rfl
    · exact (hstays hgiven hx).elim
  | drop hgiven =>
    rcases hx with hx | hx
    · exact .inr rfl
    · exact (hstays hgiven hx).elim

end Jobs

section Rows

variable {a : Image} {rows : Rows} {idx : Indexes} {id : String} {n : UInt32} {js : JobState}
  {kept : Prop}

theorem Represents.givesUp_of_dead (h : Represents a rows idx) {failedAt : Int64}
    {cause : DeadLetterCause} {reason : Option String} (hjob : a.jobs id = some js)
    (hplace : js.place = .dead n failedAt cause reason) : rows.GivesUp id n kept := by
  refine ⟨fun hmem => ?_, fun _ => ⟨_, h.buried_iff.mpr ⟨js, _, _, _, _, hjob, hplace, rfl⟩, rfl⟩⟩
  obtain ⟨js', hjob', hlive⟩ := h.mem_jobs_iff.mp hmem
  obtain rfl := Option.some.inj (hjob.symm.trans hjob')
  rw [hplace] at hlive
  exact hlive trivial

theorem Represents.givesUp_of_none (h : Represents a rows idx) (hjob : a.jobs id = none)
    (hkept : ¬ kept) : rows.GivesUp id n kept := by
  refine ⟨fun hmem => ?_, fun hk => absurd hk hkept⟩
  obtain ⟨js', hjob', -⟩ := h.mem_jobs_iff.mp hmem
  cases hjob.symm.trans hjob'

theorem Represents.triesAgain {m : UInt32} (h : Represents a rows idx) (hjob : a.jobs id = some js)
    (hwaits : js.place.Waits (n + 1)) (hleft : n < m) : rows.TriesAgain id n :=
  ⟨h.waits_iff.mpr ⟨js, hjob, hwaits⟩, toNat_succ_of_lt hleft⟩

omit [Prost] in
theorem Place.retried_waits (n : UInt32) (delayed : Option Int64) :
    (Place.retried n delayed).Waits (n + 1) := by
  cases delayed with
  | none => exact .inl rfl
  | some deadline => exact .inr ⟨deadline, rfl⟩

end Rows

section Calls

variable {a a' : Image} {rows rows' : Rows} {idx idx' : Indexes} {evs : List Event} {id : String}
  {m : UInt32}

theorem nack_keepsAttempts {req : NackRequest} {retryDelayMs : UInt64} {kept : Bool} {now : Int64}
    {r : NackOutcome} (h : Represents a rows idx) (h' : Represents a' rows' idx')
    (htrace : Trace Step a evs a') (hexp : ExplainsNack req retryDelayMs kept now r evs)
    (hlimit : ∀ js, a.jobs req.jobId = some js → js.content.maxAttempts = m) :
    rows.Leased req.jobId req.attempt ∧
      (r.deadLettered = true ↔ forcesDeadLetter req = true ∨ m ≤ req.attempt) ∧
      if r.deadLettered then rows'.GivesUp req.jobId req.attempt (kept = true)
      else rows'.TriesAgain req.jobId req.attempt := by
  have hheld : ∀ {js expires}, a.jobs req.jobId = some js →
      js.place = .leased req.attempt expires → rows.Leased req.jobId req.attempt :=
    fun hjob hplace => h.leased_iff.mpr ⟨_, _, hjob, hplace⟩
  -- what the cause of a nack says about the lease and the attempts
  have hcause : ∀ {js : JobState}, js.GivenUp req.attempt now (nackCause req) →
      (∃ expires, js.place = .leased req.attempt expires) ∧
        (forcesDeadLetter req = true ∨ js.content.maxAttempts ≤ req.attempt) := by
    intro js hgiven
    rw [nackCause] at hgiven
    split_ifs at hgiven with hforce
    · exact ⟨hgiven, .inl hforce⟩
    · exact ⟨hgiven.2, .inr hgiven.1⟩
  unfold ExplainsNack at hexp
  split_ifs at hexp with hdead
  · obtain ⟨queue, rfl⟩ := hexp
    have hstep := htrace.of_single.job req.jobId
    generalize hx : a.jobs req.jobId = x at hstep
    generalize hx' : a'.jobs req.jobId = x' at hstep
    rw [hdead]
    cases hstep with
    | other he => exact absurd rfl he
    | keep hgiven =>
      obtain ⟨⟨expires, hplace⟩, hgive⟩ := hcause hgiven
      rw [hlimit _ hx] at hgive
      exact ⟨hheld hx hplace, by simp [hgive], h'.givesUp_of_dead hx' rfl⟩
    | drop hgiven =>
      obtain ⟨⟨expires, hplace⟩, hgive⟩ := hcause hgiven
      rw [hlimit _ hx] at hgive
      exact ⟨hheld hx hplace, by simp [hgive], h'.givesUp_of_none hx' (by simp)⟩
  · obtain ⟨hforce, queue, rfl⟩ := hexp
    have hstep := htrace.of_single.job req.jobId
    generalize hx : a.jobs req.jobId = x at hstep
    generalize hx' : a'.jobs req.jobId = x' at hstep
    cases hstep with
    | other he => exact absurd rfl he
    | retry hplace hleft delayed =>
      rw [hlimit _ hx] at hleft
      rw [if_neg hdead]
      refine ⟨hheld hx hplace, ?_, h'.triesAgain hx' (Place.retried_waits ..) hleft⟩
      simp [hdead, hforce, hleft]

theorem sweep_keepsAttempts {now : Int64} {cutoff : Option Int64} {kept : Bool}
    (h : Represents a rows idx) (h' : Represents a' rows' idx') (htrace : Trace Step a evs a')
    (hevs : ∀ e ∈ evs, SweepEvent now cutoff kept e)
    (hlimit : ∀ js, a.jobs id = some js → js.content.maxAttempts = m) :
    (∀ n, rows.Waits id n → rows'.Waits id n) ∧
      ∀ n expires, rows.LeasedUntil id n expires →
        rows'.LeasedUntil id n expires ∨ ¬ now < expires ∧
          if m ≤ n then
            rows'.GivesUp id n (kept = true ∧ ∀ limit, cutoff = some limit → limit < now)
          else rows'.TriesAgain id n := by
  have hjob := jobs_of_trace htrace id
  refine ⟨fun n hn => h'.waits_iff.mpr (sweep_waits hjob hevs (h.waits_iff.mp hn)),
    fun n expires hn => ?_⟩
  obtain ⟨js, hjs, hplace⟩ := h.leasedUntil_iff.mp hn
  rw [hjs] at hjob
  obtain rfl := hlimit js hjs
  rcases sweep_leased hjob hevs hplace with hx | ⟨hdue, hx⟩
  · exact .inl (h'.leasedUntil_iff.mpr ⟨js, hx, hplace⟩)
  refine .inr ⟨hdue, ?_⟩
  rcases hx with ⟨hleft, hx⟩ | ⟨hmax, hx | ⟨hx, hcut⟩⟩
  · rw [if_neg (UInt32.not_le.mpr hleft)]
    exact h'.triesAgain hx (.inl rfl) hleft
  · rw [if_pos hmax]
    exact h'.givesUp_of_dead hx rfl
  · rw [if_pos hmax]
    refine h'.givesUp_of_none hx fun ⟨hkept, hlate⟩ => ?_
    obtain ⟨limit, hlim, hnot⟩ := hcut hkept
    exact hnot (hlate limit hlim)

theorem deadLetterJobs_keepsAttempts {now : Int64} {kept : Bool} {reason : Option String}
    (h : Represents a rows idx) (h' : Represents a' rows' idx') (htrace : Trace Step a evs a')
    (hevs : ∀ e ∈ evs, ∃ id queue k, e = .bury id queue k now .admin reason kept) (n : UInt32)
    (hn : rows.Waits id n) : rows'.Waits id n ∨ rows'.GivesUp id n (kept = true) := by
  obtain ⟨js, hjs, hwaits⟩ := h.waits_iff.mp hn
  have hjob := jobs_of_trace htrace id
  rw [hjs] at hjob
  rcases bury_waits hjob hevs hwaits with hx | hx
  · exact .inl (h'.waits_iff.mpr ⟨js, hx, hwaits⟩)
  · refine .inr ?_
    cases kept with
    | true => exact h'.givesUp_of_dead hx rfl
    | false => exact h'.givesUp_of_none hx nofun

theorem extend_keepsAttempts {id' : String} {n' : UInt32} {expires : Int64}
    (h : Represents a rows idx) (h' : Represents a' rows' idx')
    (hstep : Step a (.extend id' n' expires) a') :
    (∀ n, rows.Waits id n → rows'.Waits id n) ∧ ∀ n, rows.Leased id n → rows'.Leased id n := by
  have hjob := hstep.job id
  generalize hx : a.jobs id = x at hjob
  generalize hx' : a'.jobs id = x' at hjob
  cases hjob with
  | other =>
    refine ⟨fun n hn => ?_, fun n hn => ?_⟩
    · exact h'.waits_iff.mpr (hx' ▸ hx ▸ h.waits_iff.mp hn)
    · exact h'.leased_iff.mpr (hx' ▸ hx ▸ h.leased_iff.mp hn)
  | extend hplace =>
    refine ⟨fun n hn => ?_, fun n hn => ?_⟩
    · obtain ⟨js, hjs, hwaits⟩ := h.waits_iff.mp hn
      obtain rfl := Option.some.inj (hx.symm.trans hjs)
      rcases hwaits with hw | ⟨deadline, hw⟩ <;> cases hplace.symm.trans hw
    · obtain ⟨js, expires', hjs, hleased⟩ := h.leased_iff.mp hn
      obtain rfl := Option.some.inj (hx.symm.trans hjs)
      cases hplace.symm.trans hleased
      exact h'.leased_iff.mpr ⟨_, _, hx', rfl⟩

theorem TurnStep.keepsAttempts {s s' : Server × Image} {t : Turn} (h : TurnStep s t s')
    (hshows : s.1.Shows s.2)
    (hlimit : ∀ js, s.2.jobs id = some js → js.content.maxAttempts = m) :
    t.call.KeepsAttempts id m s.1.rows s'.1.rows := by
  obtain ⟨server, a⟩ := s
  obtain ⟨server', a'⟩ := s'
  obtain ⟨call, evs⟩ := t
  have hexp : call.Explained evs := h.explained
  have htrace : Trace Step a evs a' := h.events
  have hshows' := h.shows
  cases call with
  | restart =>
    obtain rfl : evs = [] := hexp
    cases htrace
    exact hshows'.rows_eq hshows
  | answered op result =>
    cases result with
    | error e => cases op <;> trivial
    | ok r =>
      cases op with
      | nack req retryDelayMs kept now =>
        cases r with
        | nack r =>
          rintro rfl
          exact nack_keepsAttempts hshows hshows' htrace hexp hlimit
        | _ => exact hexp.elim
      | sweep now budget cutoff kept =>
        exact sweep_keepsAttempts hshows hshows' htrace (fun e he => Explains.makes hexp he) hlimit
      | deadLetterJobs queue state keys reason kept now =>
        have hevs : ∀ e ∈ evs, ∃ id queue k, e = .bury id queue k now .admin reason kept := by
          intro e he
          obtain ⟨id, n, rfl⟩ := Explains.makes hexp he
          exact ⟨id, queue, n, rfl⟩
        exact deadLetterJobs_keepsAttempts hshows hshows' htrace hevs
      | extend req leaseMs now =>
        cases r with
        | extend r =>
          obtain ⟨rfl, -⟩ := hexp
          exact extend_keepsAttempts hshows hshows' htrace.of_single
        | _ => exact hexp.elim
      | _ => trivial

end Calls

/-! ### The deliveries of a job in a run -/

/-- The deliveries since the last birth of a job are as its rows say: all attempts up to the one it
is leased on, or before the one it waits for; its dead letter states the last one, or the one
it was waiting for when an operator gave it up. -/
structure Rows.TellsAttempts (rows : Rows) (id : String) (attempts : List UInt32) : Prop where
  leased : ∀ n, rows.Leased id n → attempts = upTo n.toNat
  waits : ∀ n, rows.Waits id n → 1 ≤ n.toNat ∧ attempts = upTo (n.toNat - 1)
  buried : ∀ record, rows.Buried id record → 1 ≤ record.finalAttempt.toNat ∧
    attempts = upTo (if record.cause = .admin then record.finalAttempt.toNat - 1
      else record.finalAttempt.toNat)

theorem Disciplined.tellsAttempts {a : Image} {rows : Rows} {idx : Indexes} {id : String}
    {m : UInt32} {evs : List Event} (h : Disciplined id m evs (a.jobs id))
    (hrep : Represents a rows idx) : rows.TellsAttempts id (attemptsSince id evs) where
  leased n hn := by
    obtain ⟨js, expires, hjs, hplace⟩ := hrep.leased_iff.mp hn
    have hstanding := (h.standing js hjs).2.2.2
    rwa [hplace] at hstanding
  waits n hn := by
    obtain ⟨js, hjs, hwaits⟩ := hrep.waits_iff.mp hn
    obtain ⟨-, hone, -, hstanding⟩ := h.standing js hjs
    rcases hwaits with hplace | ⟨deadline, hplace⟩ <;> rw [hplace] at hone hstanding <;>
      exact ⟨hone, hstanding⟩
  buried record hrecord := by
    obtain ⟨js, n, failedAt, cause, reason, hjs, hplace, rfl⟩ := hrep.buried_iff.mp hrecord
    obtain ⟨-, hone, -, hstanding⟩ := h.standing js hjs
    rw [hplace] at hone hstanding
    refine ⟨hone, hstanding.trans ?_⟩
    rw [Place.deliveries]
    rfl

/-- Between two births of a job it is delivered on the attempts one, two, three and so on, within
its limit, as its rows say; and no call changes its attempt but a nack or an expired lease, which
moves to the next attempt or gives the job up. -/
theorem Run.attempts_disciplined {calls : List Call} {call : Call} {before after : Server}
    (h : Run calls before) (hstep : CallStep before call after)
    (hadmissible : Admissible (calls ++ [call])) {job : PreparedJob}
    (hjob : job ∈ (calls ++ [call]).flatMap Call.jobs) (hpos : 1 ≤ job.limits.maxAttempts) :
    (∀ past birth since, calls = past ++ birth :: since → birth.Births job.id →
      (∀ call' ∈ since, ¬ call'.Births job.id) →
      (∃ k ≤ job.limits.maxAttempts.toNat, attemptsOf job.id since = upTo k) ∧
        before.rows.TellsAttempts job.id (attemptsOf job.id since)) ∧
      call.KeepsAttempts job.id job.limits.maxAttempts before.rows after.rows := by
  obtain ⟨turns, a, rfl, hturns, hshows, hknows⟩ := h.exists_turns
  have hdisciplined : Disciplined job.id job.limits.maxAttempts (turns.flatMap Turn.events)
      (a.jobs job.id) := by
    refine disciplined_of_trace (events_of_turns hturns) fun job' now hmem hid => ?_
    have hjob' := mem_jobs_of_insert hturns hmem
    rw [hadmissible.eq_of_id_eq hjob (by simp_all) hid]
  constructor
  · intro past birth since hcalls hbirth hlast
    obtain ⟨past, rest, rfl, rfl, hrest⟩ := List.map_eq_append_iff.mp hcalls
    obtain ⟨birth, since, rfl, rfl, rfl⟩ := List.map_eq_cons_iff.mp hrest
    have hsince := attemptsSince_of_turns hturns hbirth fun t ht =>
      hlast t.call (List.mem_map_of_mem ht)
    rw [← hsince]
    refine ⟨?_, hdisciplined.tellsAttempts hshows⟩
    obtain ⟨k, hk, hcount⟩ := hdisciplined.counted
    refine ⟨k, ?_, hcount⟩
    rwa [max_eq_right (show 1 ≤ job.limits.maxAttempts.toNat from hpos)] at hk
  · have hnew := hadmissible.fresh_of_knows hknows
    have hwf : call.WellFormed := hadmissible.wellFormed call (by simp)
    obtain ⟨evs, a', hturn, -⟩ := hstep.exists_turn hshows hwf hnew
    exact hturn.keepsAttempts hshows fun js hjs => (hdisciplined.standing js hjs).1

end Laws

/-- A job with two attempts. -/
def twoTries : PreparedJob where
  id := "a"
  req := { queue := "emails", jobType := "send" }
  limits := { priority := 5, maxAttempts := 2, dedupWindowMs := 60000 }

/-- It is delivered, put back in line by a nack, delivered again, and its lease expires. -/
def twoTriesOps : List Op :=
  [.reserve ["emails"] 30000 1 2000, .nack { jobId := "a", attempt := 1 } 0 true 3000,
    .reserve ["emails"] 30000 1 4000]

/-- The whole run, with the insertion. -/
def twoTriesRun : List Op := .enqueue [twoTries] 1000 :: twoTriesOps

open WireFormat Server in
theorem attempts_disciplined_twoTries :
    (∃ k ≤ twoTries.limits.maxAttempts.toNat, attemptsOf twoTries.id
      (performAll twoTriesOps (perform {} (.enqueue [twoTries] 1000)).2).1 = upTo k) ∧
    (perform (performAll twoTriesRun {}).2 (.sweep 40000 10 none true)).1.KeepsAttempts
      twoTries.id twoTries.limits.maxAttempts (performAll twoTriesRun {}).2.rows
      (perform (performAll twoTriesRun {}).2 (.sweep 40000 10 none true)).2.rows := by
  have h := Run.attempts_disciplined
    (Run.of_performAll (show ∀ op ∈ twoTriesRun, op.WellFormed by decide) (by decide))
    (callStep_perform _ (.sweep 40000 10 none true))
    (admissible_perform _ _ (by decide) (by decide))
    (show twoTries ∈ _ by decide +kernel) (by decide)
  refine h.imp_left fun h => ?_
  refine (h [] _ _ (performAll_cons ..) ?_ ?_).1
  · decide +kernel
  · decide +kernel

end Sepp
