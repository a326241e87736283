import Sepp.Safety.Serving
import Sepp.Safety.Waking

/-!
# A backlog is worked off

Take what is overdue at some time: timers, and dead letters whose retention is over. From then on
nothing is added to it, since whatever an operation schedules, leases, remembers or gives up later
has a later time. At the top of each of its turns the loop finds that no sweep is due, and then
nothing is overdue, or it sweeps, and then the oldest of what is overdue goes first, as much as the
sweep limit allows in each keyspace. So no timer is starved, however many commands are sent
meanwhile and whatever else becomes due: with `n` timers before it in its keyspace, a timer is
handled after `n / limit + 1` turns.

## Main definitions

* `Image.Late` — what is overdue, in the abstract state.
* `Event.After`, `Round.After`, `LoopLabel.After` — what happens later than a time.
* `Server.backlog` — how much is overdue.

## Main results

* `Step.late` — a later event adds nothing to what is overdue.
* `Server.Shows.backlog_sweep` — a sweep takes the oldest.
* `loop_works_off`.
-/

open Std

namespace Sepp

/-! ### What is overdue -/

/-- The keyspaces in which things become due one by one. -/
def timedKeyspaces : List KeyspaceName := [.scheduled, .leases, .dedupTimers, .deadLetter]

/-- What is overdue at `t`, in the abstract state. -/
def Image.Late (a : Image) (retentionMs : UInt64) (t : Int64) : KeyspaceName → Bytes → Prop
  | .scheduled, key => ∃ id js attempt deadline, a.jobs id = some js ∧
      js.place = .scheduled attempt deadline ∧ deadline ≤ t ∧
      key = TimerKey.encode { deadline, jobId := id }
  | .leases, key => ∃ id js attempt expires, a.jobs id = some js ∧
      js.place = .leased attempt expires ∧ expires ≤ t ∧
      key = TimerKey.encode { deadline := expires, jobId := id }
  | .dedupTimers, key => ∃ name d, a.dedup name = some d ∧ d.deadline ≤ t ∧
      key = dedupTimer name d.deadline
  | .deadLetter, key => ∃ id js attempt failedAt cause reason, a.jobs id = some js ∧
      js.place = .dead attempt failedAt cause reason ∧ 0 < retentionMs ∧
      failedAt.toInt + retentionMs.toNat ≤ t.toInt ∧ key = js.deadKey id failedAt
  | _, _ => False

/-- The event brings no time up to `t`. -/
def Event.After (t : Int64) : Event → Prop
  | insert job now => t < now ∧ 0 ≤ job.limits.dedupWindowMs.toInt
  | lease _ expires | extend _ _ expires => t < expires
  | retry _ _ _ delayed => ∀ deadline, delayed = some deadline → t < deadline
  | bury _ _ _ failedAt _ _ _ => t < failedAt
  | _ => True

section Late

variable [Prost] {a a' : Image} {e : Event} {evs : List Event} {retentionMs : UInt64} {t : Int64}
  {ks : KeyspaceName} {key : Bytes} {rows : Rows} {idx : Indexes}

/-- What is overdue of the rows is overdue of the state that they stand for. -/
theorem Represents.isDue_iff_late (h : Represents a rows idx) (hks : ks ∈ timedKeyspaces) :
    rows.IsDue retentionMs t ks key ↔ a.Late retentionMs t ks key := by
  simp only [timedKeyspaces, List.mem_cons, List.not_mem_nil, or_false] at hks
  rcases hks with rfl | rfl | rfl | rfl
  · rw [Rows.IsDue, h.mem_scheduled_iff_exists]
    constructor
    · rintro ⟨⟨id, js, attempt, deadline, hJ, hp, rfl⟩, hle⟩
      rw [TimerKey.deadlineOf_encode] at hle
      exact ⟨id, js, attempt, deadline, hJ, hp, hle, rfl⟩
    · rintro ⟨id, js, attempt, deadline, hJ, hp, hle, rfl⟩
      exact ⟨⟨id, js, attempt, deadline, hJ, hp, rfl⟩, by rwa [TimerKey.deadlineOf_encode]⟩
  · rw [Rows.IsDue, h.mem_leases_iff_exists]
    constructor
    · rintro ⟨⟨id, js, attempt, expires, hJ, hp, rfl⟩, hle⟩
      rw [TimerKey.deadlineOf_encode] at hle
      exact ⟨id, js, attempt, expires, hJ, hp, hle, rfl⟩
    · rintro ⟨id, js, attempt, expires, hJ, hp, hle, rfl⟩
      exact ⟨⟨id, js, attempt, expires, hJ, hp, rfl⟩, by rwa [TimerKey.deadlineOf_encode]⟩
  · rw [Rows.IsDue, h.mem_dedupTimers_iff_exists]
    constructor
    · rintro ⟨⟨name, d, hd, rfl⟩, hle⟩
      rw [dedupTimer, DedupTimerKey.deadlineOf_encode] at hle
      exact ⟨name, d, hd, hle, rfl⟩
    · rintro ⟨name, d, hd, hle, rfl⟩
      exact ⟨⟨name, d, hd, rfl⟩, by rwa [dedupTimer, DedupTimerKey.deadlineOf_encode]⟩
  · rw [Rows.IsDue, h.mem_deadLetter_iff_exists]
    constructor
    · rintro ⟨⟨id, js, attempt, failedAt, cause, reason, hJ, hp, rfl⟩, hkept, hle⟩
      rw [JobState.deadKey, DeadLetterKey.deadlineOf_encode] at hle
      exact ⟨id, js, attempt, failedAt, cause, reason, hJ, hp, hkept, hle, rfl⟩
    · rintro ⟨id, js, attempt, failedAt, cause, reason, hJ, hp, hkept, hle, rfl⟩
      refine ⟨⟨id, js, attempt, failedAt, cause, reason, hJ, hp, rfl⟩, hkept, ?_⟩
      rwa [JobState.deadKey, DeadLetterKey.deadlineOf_encode]

/-! ### Later events -/

/-- A job with a time that has passed has had it before a later event. -/
theorem JobStep.eq_of_late {id : String} {x : Option JobState} {js : JobState} {u : Int64}
    (h : JobStep id x e (some js)) (he : e.After t) (htime : js.place.time? = some u)
    (hu : u ≤ t) : x = some js := by
  have hlater : ∀ {v : Int64}, t < v → some v = some u → x = some js := fun hlt heq => by
    obtain rfl := Option.some.inj heq
    exact absurd hu (Int64.not_le.mpr hlt)
  cases h with
  | other => rfl
  | @insert job now hq hid =>
    change (job.firstPlace now).time? = some u at htime
    rw [PreparedJob.firstPlace] at htime
    split at htime
    · split_ifs at htime with hlt
      · exact hlater (Int64.lt_trans he.1 hlt) htime
      · cases htime
    · cases htime
  | lease | extend | keep => exact hlater he htime
  | retry hplace hleft delayed =>
    cases delayed with
    | none => cases htime
    | some deadline => exact hlater (he deadline rfl) htime
  | promote | redeliver | requeue => cases htime

/-- A dedup record whose window has passed has been there before a later event. -/
theorem Step.dedup_of_late (h : Step a e a') (he : e.After t) {name : DedupName} {d : DedupState}
    (hd : a'.dedup name = some d) (hle : d.deadline ≤ t) : a.dedup name = some d := by
  cases h with
  | @insert job now hq hnew hunseen hopen =>
    unfold Image.rememberJob at hd
    split at hd
    · rename_i key _
      rw [Image.setDedup_dedup] at hd
      by_cases hname : name = (⟨job.req.queue, hq⟩, key)
      · rw [hname, Function.update_self] at hd
        rw [← Option.some.inj hd] at hle
        have hnow := Int64.lt_iff_toInt_lt.mp he.1
        have hupper := now.val.toInt_lt
        have hle := Int64.le_iff_toInt_le.mp hle
        have hwindow := he.2
        rw [PreparedJob.record, toInt_saturatingAdd] at hle
        omega
      · rwa [Function.update_of_ne hname] at hd
    · exact hd
  | @forget name' _ _ _ _ | @purgeDedup name' _ _ =>
    rw [Image.setDedup_dedup] at hd
    by_cases hname : name = name'
    · rw [hname, Function.update_self] at hd
      cases hd
    · rwa [Function.update_of_ne hname] at hd
  | hit | full | closed | lease | ack | retry | extend | promote | redeliver | bury | requeue
  | discard | purge | close | reopen | lapse | append => exact hd

/-- A later event adds nothing to what is overdue. -/
theorem Step.late (h : Step a e a') (he : e.After t) (hlate : a'.Late retentionMs t ks key) :
    a.Late retentionMs t ks key := by
  have hjob : ∀ {id : String} {js : JobState} {u : Int64}, a'.jobs id = some js →
      js.place.time? = some u → u ≤ t → a.jobs id = some js := fun hJ htime hu =>
    (hJ ▸ h.job _ : JobStep _ _ _ (some _)).eq_of_late he htime hu
  cases ks with
  | scheduled =>
    obtain ⟨id, js, attempt, deadline, hJ, hp, hle, rfl⟩ := hlate
    exact ⟨id, js, attempt, deadline, hjob hJ (by rw [hp]; rfl) hle, hp, hle, rfl⟩
  | leases =>
    obtain ⟨id, js, attempt, expires, hJ, hp, hle, rfl⟩ := hlate
    exact ⟨id, js, attempt, expires, hjob hJ (by rw [hp]; rfl) hle, hp, hle, rfl⟩
  | dedupTimers =>
    obtain ⟨name, d, hd, hle, rfl⟩ := hlate
    exact ⟨name, d, h.dedup_of_late he hd hle, hle, rfl⟩
  | deadLetter =>
    obtain ⟨id, js, attempt, failedAt, cause, reason, hJ, hp, hkept, hle, rfl⟩ := hlate
    have hfailed : failedAt ≤ t := Int64.le_iff_toInt_le.mpr (by omega)
    exact ⟨id, js, attempt, failedAt, cause, reason, hjob hJ (by rw [hp]; rfl) hfailed, hp, hkept,
      hle, rfl⟩
  | jobs | payloads | inflight | ready | dedup | audit | metadata => exact hlate.elim

theorem late_of_trace (h : Trace Step a evs a') (hevs : ∀ e ∈ evs, e.After t)
    (hlate : a'.Late retentionMs t ks key) : a.Late retentionMs t ks key := by
  induction h with
  | nil => exact hlate
  | cons hstep _ ih =>
    exact hstep.late (hevs _ List.mem_cons_self)
      (ih (fun e he => hevs e (List.mem_cons_of_mem _ he)) hlate)

end Late

/-! ### Later operations -/

/-- What the admission checks and the clock promise about an operation. -/
def Op.Admitted (op : Op) : Prop :=
  (∀ now ∈ op.nowMs?, 0 ≤ now.toInt) ∧
    ∀ job ∈ op.jobs, 1 ≤ job.limits.dedupWindowMs.toInt ∧ job.limits.priority ≤ 9

instance : DecidablePred Op.Admitted := fun op =>
  have : Decidable (∀ now ∈ op.nowMs?, 0 ≤ now.toInt) := Option.decidableForallMem _
  inferInstanceAs (Decidable (_ ∧ ∀ job ∈ op.jobs, _))

/-- The operation is stamped later than `t`, if it has a stamp. -/
def Op.After (t : Int64) (op : Op) : Prop := ∀ now ∈ op.nowMs?, t < now

instance (t : Int64) : DecidablePred (Op.After t) := fun op =>
  have : Decidable (∀ now ∈ op.nowMs?, t < now) := Option.decidableForallMem _
  this

theorem lt_saturatingAdd {t now delay : Int64} (h : t < now) (hdelay : 0 ≤ delay.toInt) :
    t < saturatingAdd now delay := by
  have hlt := Int64.lt_iff_toInt_lt.mp h
  have hupper := now.toInt_lt
  rw [Int64.lt_iff_toInt_lt, toInt_saturatingAdd]
  omega

/-- A later operation makes later events. -/
theorem Op.Makes.after [Prost] {op : Op} {e : Event} {t : Int64} (h : op.Makes e)
    (hadm : op.Admitted) (hafter : op.After t) : e.After t := by
  cases e with
  | insert job now =>
    have hwindow := (hadm.2 job h.mem_jobs).1
    obtain ⟨jobs, rfl | rfl, -⟩ := h.of_insert <;> exact ⟨hafter _ rfl, by omega⟩
  | lease job expires =>
    obtain ⟨queues, leaseMs, maxJobs, now, rfl, rfl⟩ := h.of_lease
    exact lt_saturatingAdd (hafter _ rfl) (toInt_i64OfU64_nonneg _)
  | extend id attempt expires =>
    obtain ⟨req, leaseMs, now, rfl, -, -, rfl⟩ := h.of_extend
    exact lt_saturatingAdd (hafter _ rfl) (toInt_i64OfU64_nonneg _)
  | retry id queue attempt delayed =>
    obtain ⟨req, retryDelayMs, kept, now, rfl, -, -, rfl⟩ := h.of_retry
    intro deadline hdeadline
    rw [nackDelay] at hdeadline
    split_ifs at hdeadline
    rw [← Option.some.inj hdeadline]
    exact lt_saturatingAdd (hafter _ rfl) (toInt_i64OfU64_nonneg _)
  | bury id queue attempt failedAt cause reason kept =>
    rcases h.of_bury with ⟨req, retryDelayMs, rfl, -⟩ | ⟨state, keys, rfl, -⟩ |
      ⟨budget, cutoff, rfl, -⟩ <;> exact hafter _ rfl
  | _ => trivial

/-! ### Sweeps -/

section Sweeps

variable [Prost] {a a' : Image} {rows rows' : Rows} {idx idx' : Indexes} {retentionMs : UInt64}
  {t now : Int64} {ks : KeyspaceName} {key : Bytes} {server : Server} {env : CycleEnv}
  {params : SweepParams}

/-- How much of a keyspace is overdue at `t`. -/
noncomputable def Server.backlog (server : Server) (retentionMs : UInt64) (t : Int64)
    (ks : KeyspaceName) : ℕ :=
  { key | server.rows.IsDue retentionMs t ks key }.ncard

omit [Prost] in
theorem Rows.finite_isDue (rows : Rows) (retentionMs : UInt64) (t : Int64) (ks : KeyspaceName) :
    { key | rows.IsDue retentionMs t ks key }.Finite := by
  refine (List.finite_toSet (rows.get ks).keys).subset fun key hkey => ?_
  exact ExtTreeMap.mem_keys.mpr (Rows.IsDue.mem hkey).2

omit [Prost] in
/-- What is overdue stays overdue. -/
theorem Rows.IsDue.mono (h : rows.IsDue retentionMs t ks key) (hks : ks ∈ timedKeyspaces)
    (hle : t ≤ now) : rows.IsDue retentionMs now ks key := by
  simp only [timedKeyspaces, List.mem_cons, List.not_mem_nil, or_false] at hks
  rcases hks with rfl | rfl | rfl | rfl
  · exact ⟨h.1, Int64.le_trans h.2 hle⟩
  · exact ⟨h.1, Int64.le_trans h.2 hle⟩
  · exact ⟨h.1, Int64.le_trans h.2 hle⟩
  · exact ⟨h.1, h.2.1, h.2.2.trans (Int64.le_iff_toInt_le.mp hle)⟩

omit [Prost] in
/-- A phase that takes the first keys takes those first that are overdue at an earlier time. -/
theorem FirstDue.ncard_le {P : Bytes → Prop} {until_ : Int64} {budget : ℕ} {keys : List Bytes}
    {late late' : Set Bytes} (h : FirstDue P until_ budget keys) (hfinite : late.Finite)
    (hlate : ∀ key ∈ late, P key ∧ ¬ until_ < deadlineOf key)
    (hlower : ∀ key ∈ late, ∀ key', P key' → deadlineOf key' ≤ deadlineOf key → key' ∈ late)
    (hleft : ∀ key ∈ late', key ∈ late ∧ key ∉ keys) : late'.ncard ≤ late.ncard - budget := by
  have htaken : (late \ { key | key ∈ keys }).ncard ≤ late.ncard - budget :=
    h.first.ncard_sdiff_le hlate fun key hkey key' hkey' hle => hlower key hkey key' hkey'.1 hle
  exact (Set.ncard_le_ncard (fun key hkey => hleft key hkey) (hfinite.sdiff)).trans htaken

/-- The retention phase of a sweep takes the oldest dead letters, and keeps the others. -/
theorem Swept.exists_old {budget n : ℕ} {cutoff : Option Int64} {kept : Bool} {limit : Int64}
    (hswept : Swept now budget cutoff kept a n a') (h : Represents a rows idx) (ha : a.Orderly)
    (hnow : 0 ≤ now.toInt) (hcutoff : cutoff = some limit) (hlimit : limit < now) :
    ∃ old, FirstDue (· ∈ rows.deadLetter) limit budget old ∧
      ∀ retentionMs t key, t < now → a'.Late retentionMs t .deadLetter key →
        a.Late retentionMs t .deadLetter key ∧ key ∉ old := by
  subst hcutoff
  obtain ⟨due, expired, stale, old, -, rfl, -, rows₁, idx₁, hrep, rfl⟩ := hswept
  refine ⟨idx₁.deadLetter.popAll limit budget, ?_, fun retentionMs t key ht hlate => ?_⟩
  · refine (TimerIndex.firstDue_popAll (h.mem_deadLetter_expire hrep)
      (hrep.deadLetter_startsWithTime ((ha.lapse.promote).expire hnow)) _ _).congr
        fun key hdue => or_iff_left fun hburied => ?_
    rw [hburied.deadlineOf_eq] at hdue
    exact hdue hlimit
  · obtain ⟨id, js, attempt, failedAt, cause, reason, hJ, hp, hkept, hle, rfl⟩ := hlate
    obtain ⟨hbefore, hnot⟩ := (Image.retain_dead_iff hp).mp hJ
    rcases (a.dead_before_retain_iff now kept due expired hp).mp hbefore with
      hJ₀ | ⟨-, js₀, expires, -, -, -, -, rfl⟩
    · exact ⟨⟨id, js, attempt, failedAt, cause, reason, hJ₀, hp, hkept, hle, rfl⟩, hnot⟩
    · -- a job that the sweep gives up fails now
      obtain ⟨-, rfl, -, -⟩ := Place.dead.inj hp
      have hlt := Int64.lt_iff_toInt_lt.mp ht
      omega

omit [Prost] in
theorem retentionCutoff_lt {limit : Int64} (h : retentionCutoff retentionMs now = some limit)
    (hnow : 0 ≤ now.toInt) : limit < now := by
  rw [retentionCutoff] at h
  split_ifs at h with hkept
  have hpos := UInt64.lt_iff_toNat_lt.mp hkept
  rw [← Option.some.inj h, Int64.lt_iff_toInt_lt, saturatingSub, toInt_saturate, i64OfU64,
    toInt_saturate]
  rw [show UInt64.toNat 0 = 0 from rfl] at hpos
  omega

/-- A healthy sweep takes the oldest of what is overdue, as much as its limit allows in each
keyspace. -/
theorem Server.Shows.backlog_sweep (h : server.Shows a) (ha : a.Orderly) (henv : env.Healthy)
    (ht : t < env.now) (hnow : 0 ≤ env.now.toInt) (hlt : env.now.toInt < 2 ^ 63 - 1)
    (hks : ks ∈ timedKeyspaces) :
    (runSweepCycle env params server).server.backlog params.deadLetterRetentionMs t ks ≤
      server.backlog params.deadLetterRetentionMs t ks - params.sweepLimit.toNat := by
  obtain ⟨n, a', hshows', hswept⟩ := h.runSweepCycle_swept henv params
  have hkeys := hswept.keys h hshows'
  have hfinite := server.rows.finite_isDue params.deadLetterRetentionMs t ks
  have hpast : ∀ {u : Int64}, u ≤ t → ¬ env.now < u := fun hu =>
    Int64.not_lt.mpr (Int64.le_of_lt (Int64.lt_of_le_of_lt hu ht))
  simp only [timedKeyspaces, List.mem_cons, List.not_mem_nil, or_false] at hks
  rcases hks with rfl | rfl | rfl | rfl
  · refine (TimerIndex.firstDue_popAll (fun _ => h.mem_scheduled_iff)
      (h.scheduled_startsWithTime ha) env.now params.sweepLimit.toNat).ncard_le hfinite
      (fun key hkey => ⟨hkey.1, hpast hkey.2⟩)
      (fun key hkey key' hkey' hle => ⟨hkey', Int64.le_trans hle hkey.2⟩) fun key hkey => ?_
    obtain ⟨hmem, hnot⟩ := (hkeys.scheduled key).mp hkey.1
    exact ⟨⟨hmem, hkey.2⟩, hnot⟩
  · refine (TimerIndex.firstDue_popAll (fun _ => h.mem_leases_iff)
      (h.leases_startsWithTime ha) env.now params.sweepLimit.toNat).ncard_le hfinite
      (fun key hkey => ⟨hkey.1, hpast hkey.2⟩)
      (fun key hkey key' hkey' hle => ⟨hkey', Int64.le_trans hle hkey.2⟩) fun key hkey => ?_
    obtain ⟨hmem, hnot⟩ := (hkeys.leases key).mp hkey.1
    exact ⟨⟨hmem, hkey.2⟩, hnot⟩
  · refine (TimerIndex.firstDue_popAll (fun _ => h.mem_dedupTimers_iff)
      (h.dedupTimers_startsWithTime ha) env.now params.sweepLimit.toNat).ncard_le hfinite
      (fun key hkey => ⟨hkey.1, hpast hkey.2⟩)
      (fun key hkey key' hkey' hle => ⟨hkey', Int64.le_trans hle hkey.2⟩) fun key hkey => ?_
    obtain ⟨hmem, hnot⟩ := (hkeys.dedupTimers key).mp hkey.1
    exact ⟨⟨hmem, hkey.2⟩, hnot⟩
  · have hdead : KeyspaceName.deadLetter ∈ timedKeyspaces := by decide
    cases hcutoff : retentionCutoff params.deadLetterRetentionMs env.now with
    | none =>
      -- nothing is ever overdue without a retention
      have hempty : { key | (runSweepCycle env params server).server.rows.IsDue
          params.deadLetterRetentionMs t .deadLetter key } = ∅ := by
        refine Set.eq_empty_iff_forall_notMem.mpr fun key hkey => ?_
        rw [retentionCutoff, if_pos hkey.2.1] at hcutoff
        cases hcutoff
      rw [Server.backlog, hempty, Set.ncard_empty]
      exact Nat.zero_le _
    | some limit =>
      have hfailed : ∀ key ∈ server.rows.deadLetter, 0 ≤ (deadlineOf key).toInt := by
        intro key hkey
        obtain ⟨u, rest, hu, rfl⟩ := h.deadLetter_startsWithTime ha key (h.mem_deadLetter_iff.mp hkey)
        rwa [deadlineOf_append]
      obtain ⟨old, hfirst, hlate⟩ :=
        hswept.exists_old h ha hnow hcutoff (retentionCutoff_lt hcutoff hnow)
      refine hfirst.ncard_le hfinite (fun key hkey => ⟨hkey.1, ?_⟩)
        (fun key hkey key' hkey' hle => ⟨hkey', hkey.2.1, ?_⟩) fun key hkey => ?_
      · have hlater := Int64.lt_iff_toInt_lt.mp ht
        have hover := hkey.2.2
        obtain ⟨limit', hlimit', hle⟩ :=
          (le_retentionCutoff_iff hnow hlt (hfailed key hkey.1)).mpr ⟨hkey.2.1, by omega⟩
        obtain rfl := Option.some.inj (hcutoff.symm.trans hlimit')
        exact Int64.not_lt.mpr hle
      · have hover := hkey.2.2
        have hle := Int64.le_iff_toInt_le.mp hle
        omega
      · obtain ⟨hbefore, hnot⟩ := hlate _ t key ht ((hshows'.isDue_iff_late hdead).mp hkey)
        exact ⟨(h.isDue_iff_late hdead).mpr hbefore, hnot⟩

/-! ### Rounds -/

variable {ids : List String} {rounds : List Round}

/-- The events of a round are of its operations. -/
theorem Round.makes_of_turns {round : Round} {turns : List Turn} {s s' : Server × Image}
    (hcalls : turns.map Turn.call = round.committed server) (htrace : Trace TurnStep s turns s') :
    ∀ e ∈ turns.flatMap Turn.events, ∃ op ∈ round.ops, op.Makes e := by
  intro e he
  obtain ⟨turn, hturn, he⟩ := List.mem_flatMap.mp he
  obtain ⟨op, r, hcall, hmakes⟩ := (explained_of_turns htrace turn hturn).exists_op he
  refine ⟨op, (round.ops_committed server).subset (List.mem_filterMap.mpr ⟨turn.call, ?_, ?_⟩),
    hmakes⟩
  · rw [← hcalls]
    exact List.mem_map_of_mem hturn
  · rw [hcall]
    rfl

/-- A round of admitted operations keeps the state orderly; a later one adds nothing to what is
overdue. -/
theorem Round.exists_orderly (round : Round) (h : server.Shows a) (hknows : a.Knows ids)
    (hwf : ∀ op ∈ round.ops, op.WellFormed) (hfresh : (ids ++ jobIdsOf round.ops).Nodup)
    (ha : a.Orderly) (hadmitted : ∀ op ∈ round.ops, op.Admitted) :
    ∃ a', (round.run server).server.Shows a' ∧ a'.Knows (ids ++ jobIdsOf round.ops) ∧
      a'.Orderly ∧ ∀ t, (∀ op ∈ round.ops, op.After t) → ∀ retentionMs, ∀ ks ∈ timedKeyspaces,
        ∀ key, (round.run server).server.rows.IsDue retentionMs t ks key →
          server.rows.IsDue retentionMs t ks key := by
  obtain ⟨turns, a', hcalls, htrace, hshows, hknows'⟩ := round.exists_turns h hknows hwf hfresh
  have hmakes := Round.makes_of_turns hcalls htrace
  refine ⟨a', hshows, hknows', ?_, fun t hafter retentionMs ks hks key hdue => ?_⟩
  · refine (events_of_turns htrace).preserves (fun b e b' he hstep (hb : b.Orderly) => ?_) ha
    obtain ⟨turn, hturn, het⟩ := List.mem_flatMap.mp he
    have hexplained := explained_of_turns htrace turn hturn
    obtain ⟨op, r, hcall, -⟩ := hexplained.exists_op het
    have hop : op ∈ round.ops := by
      refine (round.ops_committed server).subset (List.mem_filterMap.mpr ⟨turn.call, ?_, ?_⟩)
      · rw [← hcalls]
        exact List.mem_map_of_mem hturn
      · rw [hcall]
        rfl
    have hadm : turn.call.Admitted := by
      rw [hcall]
      exact hadmitted op hop
    exact hstep.orderly (hexplained.orderly hadm e het) hb
  · rw [h.isDue_iff_late hks]
    rw [hshows.isDue_iff_late hks] at hdue
    refine late_of_trace (events_of_turns htrace) (fun e he => ?_) hdue
    obtain ⟨op, hop, hmake⟩ := hmakes e he
    exact hmake.after (hadmitted op hop) (hafter op hop)

/-! ### The loop -/

omit [Prost] in
/-- The clock of the round is later than `t`, and its sweep does not fail. -/
def Round.After (t : Int64) (round : Round) : Prop :=
  (∀ op ∈ round.ops, op.After t) ∧
    match round with
    | sweep env _ => env.Healthy ∧ env.now.toInt < 2 ^ 63 - 1
    | _ => True

omit [Prost] in
/-- The clock of the label is later than `t`, and sweeps do not fail. -/
def LoopLabel.After (t : Int64) : LoopLabel → Prop
  | quiet now => t < now ∧ now.toInt < 2 ^ 63 - 1
  | cycle round _ => round.After t
  | crash committed _ => ∀ round ∈ committed, round.After t
  | _ => True

omit [Prost] in
/-- The label is at the top of a turn of the loop. -/
def LoopLabel.isTop : LoopLabel → Bool
  | quiet _ | cycle (.sweep ..) _ => true
  | _ => false

variable {cfg : LoopConfig} {s s' : LoopState} {label : LoopLabel} {labels labels' : List LoopLabel}

/-- What is overdue at `t` has become less by `taken`, and nothing is new. -/
structure WorksOff (retentionMs : UInt64) (t : Int64) (ks : KeyspaceName) (server : Server)
    (taken : ℕ) (server' : Server) : Prop where
  count : server'.backlog retentionMs t ks ≤ server.backlog retentionMs t ks - taken
  old : ∀ key, server'.rows.IsDue retentionMs t ks key → server.rows.IsDue retentionMs t ks key

omit [Prost] in
theorem WorksOff.of_old {server' : Server}
    (h : ∀ key, server'.rows.IsDue retentionMs t ks key → server.rows.IsDue retentionMs t ks key) :
    WorksOff retentionMs t ks server 0 server' :=
  ⟨Set.ncard_le_ncard h (server.rows.finite_isDue retentionMs t ks), h⟩

omit [Prost] in
theorem WorksOff.trans {server' server'' : Server} {n n' : ℕ}
    (h : WorksOff retentionMs t ks server n server')
    (h' : WorksOff retentionMs t ks server' n' server'') :
    WorksOff retentionMs t ks server (n + n') server'' where
  count := by
    have hcount := h.count
    have hcount' := h'.count
    omega
  old key hkey := h.old key (h'.old key hkey)

omit [Prost] in
/-- A server that stays as it is takes nothing from what is overdue. -/
theorem WorksOff.refl (retentionMs : UInt64) (t : Int64) (ks : KeyspaceName) (server : Server) :
    WorksOff retentionMs t ks server 0 server :=
  .of_old fun _ hkey => hkey

/-- Nothing is overdue when no sweep is due. -/
theorem Server.Shows.worksOff_of_quiet {server : Server} (hshows : server.Shows a) (ha : a.Orderly)
    {retentionMs : UInt64} {t now : Int64} (ht : 0 ≤ t.toInt) (hlater : t < now)
    (hnow : now.toInt < 2 ^ 63 - 1) (hquiet : ¬ SweepDue server.indexes retentionMs now)
    {ks : KeyspaceName} (hks : ks ∈ timedKeyspaces) (n : ℕ) :
    WorksOff retentionMs t ks server n server := by
  refine ⟨?_, fun _ hkey => hkey⟩
  have hpos : 0 ≤ now.toInt := ht.trans (Int64.le_iff_toInt_le.mp (Int64.le_of_lt hlater))
  have hnone : { key | server.rows.IsDue retentionMs t ks key } = ∅ := by
    refine Set.eq_empty_iff_forall_notMem.mpr fun key hkey => hquiet ?_
    exact (hshows.sweepDue_iff_isDue ha hpos hnow).mpr
      ⟨ks, key, hkey.mono hks (Int64.le_of_lt hlater)⟩
  rw [Server.backlog, hnone, Set.ncard_empty]
  exact Nat.zero_le _

/-- A step of the loop that leaves the server as it is. -/
theorem LoopLabel.worksOff_of_same (hshows : s.server.Shows a) (hknows : a.Knows ids)
    (ha : a.Orderly) (hserver : s'.server = s.server) (hops : label.rounds.flatMap Round.ops = [])
    (hall : ∀ t, 0 ≤ t.toInt → label.After t → ∀ ks ∈ timedKeyspaces,
      WorksOff cfg.sweep.deadLetterRetentionMs t ks s.server
        (if label.isTop then cfg.sweep.sweepLimit.toNat else 0) s.server) :
    ∃ a', s'.server.Shows a' ∧ a'.Knows (ids ++ jobIdsOf (label.rounds.flatMap Round.ops)) ∧
      a'.Orderly ∧ ∀ t, 0 ≤ t.toInt → label.After t → ∀ ks ∈ timedKeyspaces,
        WorksOff cfg.sweep.deadLetterRetentionMs t ks s.server
          (if label.isTop then cfg.sweep.sweepLimit.toNat else 0) s'.server := by
  rw [hserver, hops]
  exact ⟨a, hshows, fun id hid => List.mem_append_left _ (hknows id hid), ha, hall⟩

/-- A round of commands takes nothing from what is overdue, and adds nothing. -/
theorem Round.worksOff (round : Round) {server : Server} (hshows : server.Shows a)
    (hknows : a.Knows ids) (hwf : ∀ op ∈ round.ops, op.WellFormed)
    (hfresh : (ids ++ jobIdsOf round.ops).Nodup) (ha : a.Orderly)
    (hadmitted : ∀ op ∈ round.ops, op.Admitted) (retentionMs : UInt64) :
    ∃ a', (round.run server).server.Shows a' ∧ a'.Knows (ids ++ jobIdsOf round.ops) ∧ a'.Orderly ∧
      ∀ t, round.After t → ∀ ks ∈ timedKeyspaces,
        WorksOff retentionMs t ks server 0 (round.run server).server := by
  obtain ⟨a', hshows', hknows', ha', hold⟩ :=
    round.exists_orderly hshows hknows hwf hfresh ha hadmitted
  exact ⟨a', hshows', hknows', ha', fun t hafter ks hks => .of_old (hold t hafter.1 _ ks hks)⟩

/-- What a step of the loop does, beside taking from what is overdue. -/
theorem LoopStep.worksOff (h : LoopStep cfg s label s') (hshows : s.server.Shows a)
    (hknows : a.Knows ids) (hwf : ∀ op ∈ label.rounds.flatMap Round.ops, op.WellFormed)
    (hfresh : (ids ++ jobIdsOf (label.rounds.flatMap Round.ops)).Nodup) (ha : a.Orderly)
    (hadmitted : ∀ op ∈ label.rounds.flatMap Round.ops, op.Admitted) :
    ∃ a', s'.server.Shows a' ∧ a'.Knows (ids ++ jobIdsOf (label.rounds.flatMap Round.ops)) ∧
      a'.Orderly ∧ ∀ t, 0 ≤ t.toInt → label.After t → ∀ ks ∈ timedKeyspaces,
        WorksOff cfg.sweep.deadLetterRetentionMs t ks s.server
          (if label.isTop then cfg.sweep.sweepLimit.toNat else 0) s'.server := by
  cases h with
  | send | close | take | timeout | stop | drain | publish =>
    exact LoopLabel.worksOff_of_same hshows hknows ha rfl rfl fun t _ _ ks _ => .refl _ t ks _
  | @quiet now htop hdue =>
    exact LoopLabel.worksOff_of_same hshows hknows ha rfl rfl fun t ht hafter ks hks =>
      hshows.worksOff_of_quiet ha ht hafter.1 hafter.2 hdue hks _
  | @sweep now env foldNow evictNow htop hdue henv =>
    have hops : (LoopLabel.cycle (.sweep env cfg.sweep) []).rounds.flatMap Round.ops =
        (Round.sweep env cfg.sweep).ops := List.append_nil _
    rw [hops] at hwf hfresh hadmitted ⊢
    obtain ⟨a', hshows', hknows', ha', hold⟩ :=
      (Round.sweep env cfg.sweep).exists_orderly hshows hknows hwf hfresh ha hadmitted
    refine ⟨a', hshows', hknows', ha', fun t ht hafter ks hks => ⟨?_, ?_⟩⟩
    · have hlater : t < env.now := hafter.1 _ List.mem_cons_self _ rfl
      have hnow : 0 ≤ env.now.toInt := ht.trans (Int64.le_iff_toInt_le.mp (Int64.le_of_lt hlater))
      exact hshows.backlog_sweep ha hafter.2.1 hlater hnow hafter.2.2 hks
    · exact hold t hafter.1 _ ks hks
  | @rpc env rpcs foldNow hphase hchannel henv =>
    have hops : (LoopLabel.cycle (.rpc env rpcs)
        (runRpcCycle env s.server rpcs).replies).rounds.flatMap Round.ops =
          (Round.rpc env rpcs).ops := List.append_nil _
    rw [hops] at hwf hfresh hadmitted ⊢
    obtain ⟨a', hshows', hknows', ha', hworks⟩ := (Round.rpc env rpcs).worksOff hshows hknows
      hwf hfresh ha hadmitted cfg.sweep.deadLetterRetentionMs
    exact ⟨a', hshows', hknows', ha', fun t _ hafter => hworks t hafter⟩
  | crash | crashBefore =>
    exact LoopLabel.worksOff_of_same hshows hknows ha hshows.rolledBack_eq rfl
      fun t _ _ ks _ => .refl _ t ks _
  | @crashAfter env rpcs replies hphase hchannel henv hreplies =>
    have hops : (LoopLabel.crash (some (.rpc env rpcs)) replies).rounds.flatMap Round.ops =
        (Round.rpc env rpcs).ops := List.append_nil _
    rw [hops] at hwf hfresh hadmitted ⊢
    obtain ⟨a', hshows', hknows', ha', hworks⟩ := (Round.rpc env rpcs).worksOff hshows hknows
      hwf hfresh ha hadmitted cfg.sweep.deadLetterRetentionMs
    have hback : (LoopState.init (runRpcCycle env s.server rpcs).server.rows).server =
        (runRpcCycle env s.server rpcs).server := hshows'.rolledBack_eq
    rw [hback]
    exact ⟨a', hshows', hknows', ha', fun t _ hafter => hworks t (hafter _ rfl)⟩

/-- What the loop has worked off after some turns. -/
theorem worksOff_of_loop (h : Trace (LoopStep cfg) s labels s') (hshows : s.server.Shows a)
    (hknows : a.Knows ids)
    (hwf : ∀ op ∈ (labels.flatMap LoopLabel.rounds).flatMap Round.ops, op.WellFormed)
    (hfresh : (ids ++ jobIdsOf ((labels.flatMap LoopLabel.rounds).flatMap Round.ops)).Nodup)
    (ha : a.Orderly)
    (hadmitted : ∀ op ∈ (labels.flatMap LoopLabel.rounds).flatMap Round.ops, op.Admitted) :
    ∃ a', s'.server.Shows a' ∧
      a'.Knows (ids ++ jobIdsOf ((labels.flatMap LoopLabel.rounds).flatMap Round.ops)) ∧
      a'.Orderly ∧ ∀ t, 0 ≤ t.toInt → (∀ label ∈ labels, label.After t) →
        ∀ ks ∈ timedKeyspaces, WorksOff cfg.sweep.deadLetterRetentionMs t ks s.server
          (labels.countP LoopLabel.isTop * cfg.sweep.sweepLimit.toNat) s'.server := by
  induction h generalizing a ids with
  | nil s =>
    refine ⟨a, hshows, by simpa [jobIdsOf] using hknows, ha, fun t _ _ ks _ => ?_⟩
    rw [List.countP_nil, Nat.zero_mul]
    exact .of_old fun _ hkey => hkey
  | @cons s mid s' label labels hstep _ ih =>
    have hops : ((label :: labels).flatMap LoopLabel.rounds).flatMap Round.ops =
        label.rounds.flatMap Round.ops ++
          (labels.flatMap LoopLabel.rounds).flatMap Round.ops := by
      rw [List.flatMap_cons, List.flatMap_append]
    rw [hops] at hwf hfresh hadmitted ⊢
    rw [jobIdsOf_append, ← List.append_assoc] at hfresh ⊢
    obtain ⟨b, hshows', hknows', hb, hfirst⟩ := hstep.worksOff hshows hknows
      (fun op hop => hwf op (List.mem_append_left _ hop)) (List.nodup_append.mp hfresh).1 ha
      (fun op hop => hadmitted op (List.mem_append_left _ hop))
    obtain ⟨a', hshows'', hknows'', ha', hrest⟩ := ih hshows' hknows'
      (fun op hop => hwf op (List.mem_append_right _ hop)) hfresh hb
      (fun op hop => hadmitted op (List.mem_append_right _ hop))
    refine ⟨a', hshows'', hknows'', ha', fun t ht hafter ks hks => ?_⟩
    have hall := (hfirst t ht (hafter _ List.mem_cons_self) ks hks).trans
      (hrest t ht (fun label hlabel => hafter label (List.mem_cons_of_mem _ hlabel)) ks hks)
    rw [List.countP_cons]
    cases htop : label.isTop with
    | true =>
      rw [htop, if_pos rfl] at hall
      rw [if_pos rfl, Nat.add_comm, Nat.add_mul, Nat.one_mul]
      exact hall
    | false =>
      rw [htop, if_neg Bool.false_ne_true, Nat.zero_add] at hall
      rwa [if_neg Bool.false_ne_true, Nat.add_zero]

/-- From any time on, whatever commands are sent and however often the process dies, each turn of
the loop takes from what is overdue at that time as much as the sweep limit allows, the oldest
first, and nothing is added: no timer is starved. -/
theorem loop_works_off (htrace : Trace (LoopStep cfg) (.init {}) labels s)
    (hlater : Trace (LoopStep cfg) s labels' s')
    (hadm : AdmissibleRounds ((labels ++ labels').flatMap LoopLabel.rounds))
    (hadmitted : ∀ op ∈ ((labels ++ labels').flatMap LoopLabel.rounds).flatMap Round.ops,
      op.Admitted)
    (ht : 0 ≤ t.toInt) (hafter : ∀ label ∈ labels', label.After t) (hks : ks ∈ timedKeyspaces) :
    WorksOff cfg.sweep.deadLetterRetentionMs t ks s.server
      (labels'.countP LoopLabel.isTop * cfg.sweep.sweepLimit.toNat) s'.server := by
  have hnew : (LoopState.init {}).server = {} := Server.shows_empty.rolledBack_eq
  have hops : ((labels ++ labels').flatMap LoopLabel.rounds).flatMap Round.ops =
      (labels.flatMap LoopLabel.rounds).flatMap Round.ops ++
        (labels'.flatMap LoopLabel.rounds).flatMap Round.ops := by
    rw [List.flatMap_append, List.flatMap_append]
  have hwf : ∀ op ∈ ((labels ++ labels').flatMap LoopLabel.rounds).flatMap Round.ops,
      op.WellFormed := fun op hop => by
    obtain ⟨round, hround, hop⟩ := List.mem_flatMap.mp hop
    exact hadm.wellFormed round hround op hop
  have hfresh := hadm.fresh
  rw [hops] at hwf hfresh hadmitted
  rw [jobIdsOf_append] at hfresh
  have hknows : Image.empty.Knows [] := fun _ hid => absurd rfl hid
  obtain ⟨a, hshows, hknows, ha, -⟩ := worksOff_of_loop htrace (hnew ▸ Server.shows_empty) hknows
    (fun op hop => hwf op (List.mem_append_left _ hop)) (List.nodup_append.mp hfresh).1
    Image.orderly_empty (fun op hop => hadmitted op (List.mem_append_left _ hop))
  obtain ⟨-, -, -, -, hall⟩ := worksOff_of_loop hlater hshows hknows
    (fun op hop => hwf op (List.mem_append_right _ hop)) hfresh ha
    (fun op hop => hadmitted op (List.mem_append_right _ hop))
  exact hall t ht hafter ks hks

end Sweeps

/-! ### A lease that has expired -/

/-- A job is enqueued and reserved for ten milliseconds. -/
def shortLease : List Command :=
  [.op (.enqueue [plainJob "a"] 0) 0, .op (.reserve ["emails"] 10 1 0) 1]

open WireFormat in
/-- The loop sweeps after the lease has expired, and takes it. -/
theorem loop_works_off_shortLease : ∃ labels s s',
    Trace (LoopStep quietLoop) (.init {}) labels s ∧
    Trace (LoopStep quietLoop) s [.cycle (.sweep (calmEnv 2000 false) quietLoop.sweep) []] s' ∧
    labels.flatMap LoopLabel.rounds = [.rpc (calmEnv 1000 false) shortLease] ∧
    WorksOff 0 1500 .leases s.server 100 s'.server := by
  obtain ⟨labels, s, htrace, -, hrounds, -, hserver, htop, -, -⟩ :=
    exists_first_turn (calmEnv 1000 false) rfl (.op (.enqueue [plainJob "a"] 0) 0)
      [.op (.reserve ["emails"] 10 1 0) 1]
  have hdue : SweepDue s.server.indexes quietLoop.sweep.deadLetterRetentionMs 2000 := by
    rw [hserver]
    exact ⟨1010, by decide +kernel, by decide⟩
  have hsweep : Trace (LoopStep quietLoop) s
      [.cycle (.sweep (calmEnv 2000 false) quietLoop.sweep) []] _ :=
    .single (@LoopStep.sweep _ quietLoop s 2000 (calmEnv 2000 false) 0 0 htop hdue rfl)
  have hall : (labels ++ [LoopLabel.cycle (.sweep (calmEnv 2000 false) quietLoop.sweep) []]).flatMap
      LoopLabel.rounds = [.rpc (calmEnv 1000 false) shortLease,
        .sweep (calmEnv 2000 false) quietLoop.sweep] := by
    rw [List.flatMap_append, hrounds]
    rfl
  refine ⟨labels, s, _, htrace, hsweep, hrounds, ?_⟩
  have hafter : ∀ label ∈ [LoopLabel.cycle (.sweep (calmEnv 2000 false) quietLoop.sweep) []],
      label.After 1500 := fun label hlabel => by
    rw [List.mem_singleton.mp hlabel]
    exact ⟨by decide, ⟨rfl, rfl⟩, by decide⟩
  exact loop_works_off htrace hsweep (by rw [hall]; exact ⟨by decide, by decide⟩)
    (by rw [hall]; decide) (by decide) hafter (by decide)

end Sepp
