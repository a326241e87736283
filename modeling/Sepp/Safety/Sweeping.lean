import Sepp.Run.Admission
import Sepp.Spec.Frame
import Sepp.Wire.Codec

/-!
# A sweep does exactly what is due

After every admitted run, a sweep drops the tombstones that have lapsed, and each of its phases
processes the first keys that are due, as many as the budget allows, in the order of their
deadlines. The budget of a phase is its own. Every other job, record and row stays as it is, and a
job that the sweep itself gives up keeps its dead letter when the retention cutoff is in the past.

## Main definitions

* `FirstDue` — the keys that a phase may process.
* `Image.BuriesWith` — the dead letters that the end of some leases stores.

## Main results

* `Run.sweep_exact`.
-/

open Std

namespace Sepp

/-- The first `budget` keys that are due, in the order of their deadlines, among those with `P`. -/
structure FirstDue (P : Bytes → Prop) (now : Int64) (budget : ℕ) (keys : List Bytes) : Prop where
  first : FirstBy (fun key key' => deadlineOf key ≤ deadlineOf key') (TimerIndex.dueKeys P now)
    budget keys
  length_eq : keys.length = min budget (TimerIndex.dueKeys P now).ncard

/-- The dead letters that the end of the leases stores. -/
def Image.BuriesWith (a : Image) (now : Int64) (kept : Bool) (expired : List Bytes)
    (key : Bytes) : Prop :=
  kept = true ∧ ∃ id js attempt expires, a.jobs id = some js ∧
    js.place = .leased attempt expires ∧
    TimerKey.encode { deadline := expires, jobId := id } ∈ expired ∧
    js.content.maxAttempts ≤ attempt ∧ key = js.deadKey id now

/-- The keys that a phase pops are the first due keys of its index. -/
theorem TimerIndex.firstDue_popAll {idx : TimerIndex} {P : Bytes → Prop}
    (hP : ∀ key, P key ↔ key ∈ idx.keys) (htimes : ∀ key ∈ idx.keys, StartsWithTime key)
    (now : Int64) (budget : ℕ) : FirstDue P now budget (idx.popAll now budget) := by
  obtain rfl : P = (· ∈ idx.keys) := funext fun key => propext (hP key)
  have hfirst := firstBy_popAll now budget idx htimes
  exact ⟨hfirst, hfirst.length_eq (finite_dueKeys idx now)⟩

theorem FirstDue.congr {P Q : Bytes → Prop} {now : Int64} {budget : ℕ} {keys : List Bytes}
    (h : FirstDue P now budget keys) (hPQ : ∀ key, ¬ now < deadlineOf key → (P key ↔ Q key)) :
    FirstDue Q now budget keys := by
  have hsets : TimerIndex.dueKeys P now = TimerIndex.dueKeys Q now :=
    Set.ext fun key => and_congr_left (hPQ key)
  exact ⟨hsets ▸ h.first, hsets ▸ h.length_eq⟩

/-! ### One job through the phases -/

section Phases

variable {a : Image} {id : String} {js : JobState} {now : Int64} {kept : Bool} {keys : List Bytes}

/-- A phase leaves the jobs alone whose keys it does not process. -/
theorem Image.promote_jobs_of_ne (h : ∀ key ∈ keys, timerJob key ≠ some id) :
    (a.promote keys).jobs id = a.jobs id := by
  cases hJ : a.jobs id with
  | none => simp [promote, onJobs, hJ]
  | some js =>
    simp only [promote, onJobs, hJ, Option.bind_some, JobState.promotedBy]
    split
    · exact if_neg fun hmem => h _ hmem (timerJob_encode _ _)
    · rfl

theorem Image.expire_jobs_of_ne (h : ∀ key ∈ keys, timerJob key ≠ some id) :
    (a.expire now kept keys).jobs id = a.jobs id := by
  cases hJ : a.jobs id with
  | none => simp [expire, onJobs, hJ]
  | some js =>
    simp only [expire, onJobs, hJ, Option.bind_some, JobState.expiredBy]
    split
    · exact if_neg fun hmem => h _ hmem (timerJob_encode _ _)
    · rfl

theorem Image.retain_jobs_of_ne (h : ∀ key ∈ keys, DeadLetterKey.jobIdOf key ≠ some id) :
    (a.retain keys).jobs id = a.jobs id := by
  cases hJ : a.jobs id with
  | none => simp [retain, onJobs, hJ]
  | some js =>
    simp only [retain, onJobs, hJ, Option.bind_some, JobState.retainedBy]
    split
    · exact if_neg fun hmem => h _ hmem (jobIdOf_deadKey _ _ _)
    · rfl

theorem Image.forget_dedup_of_ne {name : DedupName}
    (h : ∀ key ∈ keys, dedupTimerName key ≠ some name) :
    (a.forget keys).dedup name = a.dedup name := by
  cases hd : a.dedup name with
  | none => simp [forget, hd]
  | some d =>
    simp only [forget, hd]
    exact Option.filter_some_pos
      (decide_eq_true fun hmem => h _ hmem (dedupTimerName_dedupTimer _ _))

/-- Promotion changes scheduled jobs only. -/
theorem Image.promote_jobs_eq_some_iff (hplace : ∀ attempt, js.place ≠ .ready attempt)
    (hplace' : ∀ attempt deadline, js.place ≠ .scheduled attempt deadline) :
    (a.promote keys).jobs id = some js ↔ a.jobs id = some js := by
  cases hJ : a.jobs id with
  | none => simp [promote, onJobs, hJ]
  | some js₀ =>
    simp only [promote, onJobs, hJ, Option.bind_some, JobState.promotedBy]
    split
    · rename_i attempt deadline hp
      constructor
      · intro h
        split_ifs at h
        · rw [← Option.some.inj h] at hplace
          exact absurd rfl (hplace attempt)
        · exact h
      · intro h
        rw [Option.some.inj h] at hp
        exact absurd hp (hplace' attempt deadline)
    · rfl

/-- A job is dead after the end of the leases if it was before, or if its last attempt has
expired. -/
theorem Image.expire_dead_iff {attempt : UInt32} {failedAt : Int64} {cause : DeadLetterCause}
    {reason : Option String} (hp : js.place = .dead attempt failedAt cause reason) :
    (a.expire now kept keys).jobs id = some js ↔ a.jobs id = some js ∨
      kept = true ∧ ∃ js₀ expires, a.jobs id = some js₀ ∧ js₀.place = .leased attempt expires ∧
        TimerKey.encode { deadline := expires, jobId := id } ∈ keys ∧
        js₀.content.maxAttempts ≤ attempt ∧
        js = { js₀ with place := .dead attempt now .leaseExpired none } := by
  cases hJ : a.jobs id with
  | none => simp [expire, onJobs, hJ]
  | some js₀ =>
    simp only [expire, onJobs, hJ, Option.bind_some, JobState.expiredBy, Option.some.injEq]
    constructor
    · intro h
      split at h
      · rename_i n expires hp₀
        split_ifs at h with hmem hlast hkept
        · obtain rfl := Option.some.inj h
          obtain ⟨rfl, rfl, rfl, rfl⟩ := Place.dead.inj hp
          exact .inr ⟨hkept, js₀, expires, rfl, hp₀, hmem, hlast, rfl⟩
        · obtain rfl := Option.some.inj h
          cases hp
        · exact .inl (Option.some.inj h)
      · exact .inl (Option.some.inj h)
    · rintro (rfl | ⟨hkept, js₁, expires, rfl, hp₀, hmem, hlast, rfl⟩)
      · simp [hp]
      · simp [hp₀, hmem, hlast, hkept]

/-- The retention phase keeps the dead letters that it does not process. -/
theorem Image.retain_dead {attempt : UInt32} {failedAt : Int64} {cause : DeadLetterCause}
    {reason : Option String} (hJ : a.jobs id = some js)
    (hp : js.place = .dead attempt failedAt cause reason) (hkey : js.deadKey id failedAt ∉ keys) :
    (a.retain keys).jobs id = some js := by
  simp only [retain, onJobs, hJ, Option.bind_some, JobState.retainedBy, hp, if_neg hkey]

/-- The dead jobs before the retention phase. -/
theorem Image.dead_before_retain_iff (a : Image) (now : Int64) (kept : Bool)
    (due expired : List Bytes) {attempt : UInt32} {failedAt : Int64} {cause : DeadLetterCause}
    {reason : Option String} (hp : js.place = .dead attempt failedAt cause reason) :
    (((a.lapse now).promote due).expire now kept expired).jobs id = some js ↔
      a.jobs id = some js ∨
      kept = true ∧ ∃ js₀ expires, a.jobs id = some js₀ ∧ js₀.place = .leased attempt expires ∧
        TimerKey.encode { deadline := expires, jobId := id } ∈ expired ∧
        js₀.content.maxAttempts ≤ attempt ∧
        js = { js₀ with place := .dead attempt now .leaseExpired none } := by
  have hpromote : ∀ {js : JobState}, (∀ n, js.place ≠ .ready n) →
      (∀ n t, js.place ≠ .scheduled n t) →
      (((a.lapse now).promote due).jobs id = some js ↔ a.jobs id = some js) :=
    fun hr hs => promote_jobs_eq_some_iff hr hs
  rw [expire_dead_iff hp, hpromote (by simp [hp]) (by simp [hp])]
  refine or_congr Iff.rfl (and_congr Iff.rfl (exists_congr fun js₀ => exists_congr fun expires => ?_))
  refine and_congr_left fun h => hpromote ?_ ?_ <;> simp [h.1]

/-! ### The phases keep the state orderly -/

theorem Image.Orderly.onJobs {f : String → JobState → Option JobState} (h : a.Orderly)
    (hf : ∀ id js js', js.Orderly → f id js = some js' → js'.Orderly) : (a.onJobs f).Orderly where
  jobs id js hjob := by
    obtain ⟨js₀, hJ, hjs⟩ := Option.bind_eq_some_iff.mp hjob
    exact hf id js₀ js (h.jobs id js₀ hJ) hjs
  dedup := h.dedup

theorem Image.Orderly.lapse (h : a.Orderly) : (a.lapse now).Orderly := ⟨h.jobs, h.dedup⟩

theorem Image.Orderly.promote (h : a.Orderly) : (a.promote keys).Orderly := by
  refine h.onJobs fun id js js' hjs heq => ?_
  unfold JobState.promotedBy at heq
  split at heq
  · split_ifs at heq
    · rw [← Option.some.inj heq]
      exact hjs.withPlace fun t ht => by cases ht
    · exact Option.some.inj heq ▸ hjs
  · exact Option.some.inj heq ▸ hjs

theorem Image.Orderly.expire (h : a.Orderly) (hnow : 0 ≤ now.toInt) :
    (a.expire now kept keys).Orderly := by
  refine h.onJobs fun id js js' hjs heq => ?_
  unfold JobState.expiredBy at heq
  split at heq
  · split_ifs at heq
    · rw [← Option.some.inj heq]
      exact hjs.withPlace fun t ht => Option.some.inj ht ▸ hnow
    · rw [← Option.some.inj heq]
      exact hjs.withPlace fun t ht => by cases ht
    · exact Option.some.inj heq ▸ hjs
  · exact Option.some.inj heq ▸ hjs

end Phases

/-! ### The sweep -/

section Sweep

variable [Prost] {a : Image} {rows : Rows} {idx : Indexes} {now : Int64} {kept : Bool}
  {due expired : List Bytes}

/-- The dead letters after the end of the leases: those from before, and those it stores. -/
theorem Represents.mem_deadLetter_expire {rows' : Rows} {idx' : Indexes}
    (h : Represents a rows idx)
    (h' : Represents (((a.lapse now).promote due).expire now kept expired) rows' idx')
    (key : Bytes) :
    key ∈ rows.deadLetter ∨ a.BuriesWith now kept expired key ↔ key ∈ idx'.deadLetter.keys := by
  rw [h.mem_deadLetter_iff]
  constructor
  · rintro (hkey | ⟨hkept, id, js, attempt, expires, hJ, hp, hmem, hlast, rfl⟩)
    · obtain ⟨queue, hqueue⟩ := ExtTreeMap.mem_iff_exists.mp hkey
      obtain ⟨id, js, attempt, failedAt, cause, reason, hJ, hp, rfl, rfl⟩ :=
        h.jobs.of_dead_entry hqueue
      have hdead := (a.dead_before_retain_iff now kept due expired hp).mpr (.inl hJ)
      exact ExtTreeMap.mem_iff_exists.mpr ⟨_, h'.jobs.get_dead_entry hdead hp⟩
    · have hdead := (a.dead_before_retain_iff now kept due expired rfl).mpr
        (.inr ⟨hkept, js, expires, hJ, hp, hmem, hlast, rfl⟩)
      exact ExtTreeMap.mem_iff_exists.mpr ⟨_, h'.jobs.get_dead_entry hdead rfl⟩
  · intro hkey
    obtain ⟨queue, hqueue⟩ := ExtTreeMap.mem_iff_exists.mp hkey
    obtain ⟨id, js, attempt, failedAt, cause, reason, hJ, hp, rfl, rfl⟩ :=
      h'.jobs.of_dead_entry hqueue
    rcases (a.dead_before_retain_iff now kept due expired hp).mp hJ with
      hJ₀ | ⟨hkept, js₀, expires, hJ₀, hp₀, hmem, hlast, rfl⟩
    · exact .inl (ExtTreeMap.mem_iff_exists.mpr ⟨_, h.jobs.get_dead_entry hJ₀ hp⟩)
    · obtain ⟨-, rfl, -, -⟩ := Place.dead.inj hp
      exact .inr ⟨hkept, id, js₀, attempt, expires, hJ₀, hp₀, hmem, hlast, rfl⟩

omit [Prost] in
/-- A job that the sweep gives up has failed now. -/
theorem Image.BuriesWith.deadlineOf_eq {key : Bytes} (h : a.BuriesWith now kept expired key) :
    deadlineOf key = now := by
  obtain ⟨-, id, js, attempt, expires, -, -, -, -, rfl⟩ := h
  exact DeadLetterKey.deadlineOf_encode _

/-- What the last phase of a sweep deletes, and that it spares what the sweep has just given up. -/
theorem Server.Shows.retention_exact {server server' : Server} (hshows : server.Shows a)
    (horderly : a.Orderly) {now limit : Int64} (hnow : 0 ≤ now.toInt) {kept : Bool} {budget : ℕ}
    {due expired stale : List Bytes} {rows : Rows} {idx : Indexes}
    (hrep : Represents (((a.lapse now).promote due).expire now kept expired) rows idx)
    (hshows' : server'.Shows (((((a.lapse now).promote due).expire now kept expired).forget
      stale).retain (idx.deadLetter.popAll limit budget))) :
    FirstDue (fun key => key ∈ server.rows.deadLetter ∨ a.BuriesWith now kept expired key) limit
        budget (idx.deadLetter.popAll limit budget) ∧
      (limit < now →
        FirstDue (· ∈ server.rows.deadLetter) limit budget (idx.deadLetter.popAll limit budget) ∧
        ∀ key, a.BuriesWith now kept expired key → key ∈ server'.rows.deadLetter) := by
  have hold : FirstDue (fun key => key ∈ server.rows.deadLetter ∨ a.BuriesWith now kept expired key)
      limit budget (idx.deadLetter.popAll limit budget) :=
    TimerIndex.firstDue_popAll (hshows.mem_deadLetter_expire hrep)
      (hrep.deadLetter_startsWithTime ((horderly.lapse.promote).expire hnow)) _ _
  refine ⟨hold, fun hlater => ⟨hold.congr fun key hdue => or_iff_left fun hburied => ?_, ?_⟩⟩
  · rw [hburied.deadlineOf_eq] at hdue
    exact hdue hlater
  · rintro _ ⟨hkept, id, js, attempt, expires, hJ, hp, hmem, hlast, rfl⟩
    have hdead := (a.dead_before_retain_iff now kept due expired rfl).mpr
      (.inr ⟨hkept, js, expires, hJ, hp, hmem, hlast, rfl⟩)
    have hkeep : js.deadKey id now ∉ idx.deadLetter.popAll limit budget := by
      intro hchosen
      have hdue := (hold.first.mem _ hchosen).2
      rw [JobState.deadKey, DeadLetterKey.deadlineOf_encode] at hdue
      exact hdue hlater
    rw [hshows'.mem_deadLetter_iff, ExtTreeMap.mem_iff_exists]
    exact ⟨_, hshows'.jobs.get_dead_entry
      (Image.retain_dead (a := Image.forget stale _) hdead rfl hkeep) rfl⟩

/-- What a sweep answers and does, after every admitted run. -/
theorem Run.sweep_exact {calls : List Call} {server : Server} (h : Run calls server)
    (hadm : ∀ call ∈ calls, call.Admitted) {now : Int64} (hnow : 0 ≤ now.toInt) (budget : UInt64)
    (cutoff : Option Int64) (kept : Bool) :
    (∃ n server', server.perform (.sweep now budget cutoff kept) =
      (.answered (.sweep now budget cutoff kept) (.ok (.sweep n)), server')) ∧
    ∀ n server', CallStep server (.answered (.sweep now budget cutoff kept) (.ok (.sweep n)))
        server' → ∃ (a : Image) (due expired stale old : List Bytes), server.Shows a ∧
      server'.Shows
        (((((a.lapse now).promote due).expire now kept expired).forget stale).retain old) ∧
      n = due.length + expired.length + stale.length + old.length ∧
      FirstDue (· ∈ server.rows.scheduled) now budget.toNat due ∧
      FirstDue (· ∈ server.rows.leases) now budget.toNat expired ∧
      FirstDue (· ∈ server.rows.dedupTimers) now budget.toNat stale ∧
      (cutoff = none → old = []) ∧
      (∀ limit, cutoff = some limit → FirstDue
        (fun key => key ∈ server.rows.deadLetter ∨ a.BuriesWith now kept expired key) limit
          budget.toNat old ∧
        (limit < now → FirstDue (· ∈ server.rows.deadLetter) limit budget.toNat old ∧
          ∀ key, a.BuriesWith now kept expired key → key ∈ server'.rows.deadLetter)) ∧
      (∀ id, (∀ key ∈ due ++ expired, timerJob key ≠ some id) →
        (∀ key ∈ old, DeadLetterKey.jobIdOf key ≠ some id) →
          server.rows.SameJob server'.rows id) ∧
      ∀ name, (∀ key ∈ stale, dedupTimerName key ≠ some name) →
        server.rows.SameName server'.rows name := by
  obtain ⟨a, hshows, horderly⟩ := h.exists_orderly hadm
  have hreal : Realizes (applyOp (.sweep now budget cutoff kept)) a _ :=
    Realizes.wrap OpOutcome.sweep (applySweep_realizes a now budget.toNat cutoff kept)
  refine ⟨?_, fun n server' hstep => ?_⟩
  · obtain ⟨r, server', evs, a', hperform, -, -, n, rfl, -⟩ := hshows.perform_of_realizes hreal
    exact ⟨n, server', hperform⟩
  obtain ⟨evs, a', -, hshows', n', hn, -, due, expired, stale, old, hcount, rfl, hfirst, hold⟩ :=
    hshows.callStep_of_realizes hreal hstep
  obtain rfl := OpOutcome.sweep.inj hn
  obtain ⟨hdue, hexpired, hstale⟩ := hfirst _ _ hshows
  refine ⟨a, due, expired, stale, old, hshows, hshows', hcount, ?_, ?_, ?_, ?_, ?_, ?_, ?_⟩
  · rw [hdue]
    exact TimerIndex.firstDue_popAll (fun _ => hshows.mem_scheduled_iff)
      (hshows.scheduled_startsWithTime horderly) _ _
  · rw [hexpired]
    exact TimerIndex.firstDue_popAll (fun _ => hshows.mem_leases_iff)
      (hshows.leases_startsWithTime horderly) _ _
  · rw [hstale]
    exact TimerIndex.firstDue_popAll (fun _ => hshows.mem_dedupTimers_iff)
      (hshows.dedupTimers_startsWithTime horderly) _ _
  · rintro rfl
    exact hold
  · rintro limit rfl
    obtain ⟨rows, idx, hrep, rfl⟩ := hold
    exact hshows.retention_exact horderly hnow hrep hshows'
  · intro id hnot hnot'
    refine hshows.sameJob hshows' ?_
    rw [Image.retain_jobs_of_ne hnot']
    change (((a.lapse now).promote _).expire now kept _).jobs id = _
    rw [Image.expire_jobs_of_ne fun key hkey => hnot key (List.mem_append_right _ hkey),
      Image.promote_jobs_of_ne fun key hkey => hnot key (List.mem_append_left _ hkey)]
    rfl
  · intro name hnot
    refine hshows.sameName hshows' ?_
    change (Image.forget _ _).dedup name = _
    rw [Image.forget_dedup_of_ne hnot]
    rfl

end Sweep

/-- Two jobs that wait for a retry and one that is leased. -/
def overdueJobs : List Op :=
  let job (id : String) : PreparedJob :=
    { id
      req := { queue := "emails", jobType := "send" }
      limits := { priority := 5, maxAttempts := 3, dedupWindowMs := 60000 } }
  [.enqueue [job "a", job "b", job "c"] 1000, .reserve ["emails"] 30000 3 2000,
    .nack { jobId := "a", attempt := 1 } 6000 true 3000,
    .nack { jobId := "b", attempt := 1 } 5000 true 3000]

open WireFormat Server in
/-- With a budget of one, a late sweep promotes one of the jobs and ends the lease. -/
theorem sweep_exact_overdueJobs :
    ∃ (a : Image) (due expired stale old : List Bytes), (performAll overdueJobs {}).2.Shows a ∧
      2 = due.length + expired.length + stale.length + old.length ∧
      FirstDue (· ∈ (performAll overdueJobs {}).2.rows.scheduled) 40000 1 due ∧
      FirstDue (· ∈ (performAll overdueJobs {}).2.rows.leases) 40000 1 expired ∧ old = [] := by
  have hcall : ((performAll overdueJobs {}).2.perform (.sweep 40000 1 none true)).1 =
      .answered (.sweep 40000 1 none true) (.ok (.sweep 2)) := by decide +kernel
  have hstep := callStep_perform (performAll overdueJobs {}).2 (.sweep 40000 1 none true)
  rw [hcall] at hstep
  obtain ⟨a, due, expired, stale, old, hshows, -, hcount, hdue, hexpired, -, hold, -⟩ :=
    (Run.sweep_exact (Run.of_performAll (by decide) (by decide)) (by decide +kernel)
      (show 0 ≤ (40000 : Int64).toInt by decide) 1 none true).2 _ _ hstep
  exact ⟨a, due, expired, stale, old, hshows, hcount, hdue, hexpired, hold rfl⟩

end Sepp
