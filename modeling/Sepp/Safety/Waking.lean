import Sepp.Committer.Wake
import Sepp.Run.Outcomes
import Sepp.Run.Rounds
import Sepp.Safety.Sweeping
import Sepp.Wire.RoundTrip

/-!
# The committer wakes up for what a sweep clears

The due test of the committer and the sweep are written apart: one looks at the first entry of
every index and adds the retention to it, the other pops what is due and subtracts the retention
from the clock. They agree: a sweep is due exactly when it would remove something, so the committer
neither spins on a deadline that a sweep does not clear nor sleeps past work that is due, and a few
sweeps at one time clear all there is.

## Main definitions

* `SweptKeys` — the keys of the timers, the dead letters and the tombstones after a sweep.
* `Rows.Loses`, `Rows.IsDue` — one of them is gone; one of them is due.
* `Server.sweeps` — sweeps in a row.

## Main results

* `Swept.keys` — what a sweep does to the abstract state, in the rows.
* `Run.wake_agrees`.
-/

open Std

namespace Sepp

/-! ### What a phase pops -/

/-- Something is popped when the first entry is due. -/
theorem TimerIndex.popAll_ne_nil_iff {idx : TimerIndex} {now : Int64} {n : ℕ} (hn : 1 ≤ n) :
    idx.popAll now n ≠ [] ↔ idx.FirstDueAt now := by
  obtain ⟨n, rfl⟩ := Nat.exists_eq_add_of_le' hn
  rw [popAll, FirstDueAt, earliest, popDue]
  cases hhead : idx.keys.toList.head? with
  | none => simp
  | some entry =>
    obtain ⟨key, queue⟩ := entry
    have hkey := ExtTreeMap.mem_toList_iff_getElem?_eq_some.mp (List.mem_of_head? hhead)
    by_cases hdue : now < deadlineOf key
    · simp [hdue, Int64.not_le.mpr hdue]
    · simp [hdue, remove, hkey, Int64.not_lt.mp hdue]

/-! ### The jobs after a phase -/

section Phases

variable {a : Image} {id : String} {js : JobState} {now : Int64} {kept : Bool} {keys : List Bytes}
  {attempt : UInt32}

/-- The jobs that stay scheduled are those whose keys are not processed. -/
theorem Image.promote_scheduled_iff {deadline : Int64} (hp : js.place = .scheduled attempt deadline) :
    (a.promote keys).jobs id = some js ↔
      a.jobs id = some js ∧ TimerKey.encode { deadline, jobId := id } ∉ keys := by
  cases hJ : a.jobs id with
  | none => simp [promote, onJobs, hJ]
  | some js₀ =>
    simp only [promote, onJobs, hJ, Option.bind_some, JobState.promotedBy, Option.some.injEq]
    constructor
    · intro h
      split at h
      · rename_i n t hp₀
        split_ifs at h with hmem
        · rw [← Option.some.inj h] at hp
          cases hp
        · obtain rfl := Option.some.inj h
          obtain ⟨rfl, rfl⟩ := Place.scheduled.inj (hp₀.symm.trans hp)
          exact ⟨rfl, hmem⟩
      · rename_i hnot
        obtain rfl := Option.some.inj h
        exact absurd hp (hnot _ _)
    · rintro ⟨rfl, hmem⟩
      simp [hp, hmem]

/-- The jobs that stay leased are those whose keys are not processed. -/
theorem Image.expire_leased_iff {expires : Int64} (hp : js.place = .leased attempt expires) :
    (a.expire now kept keys).jobs id = some js ↔
      a.jobs id = some js ∧ TimerKey.encode { deadline := expires, jobId := id } ∉ keys := by
  cases hJ : a.jobs id with
  | none => simp [expire, onJobs, hJ]
  | some js₀ =>
    simp only [expire, onJobs, hJ, Option.bind_some, JobState.expiredBy, Option.some.injEq]
    constructor
    · intro h
      split at h
      · rename_i n t hp₀
        split_ifs at h with hmem
        · rw [← Option.some.inj h] at hp
          cases hp
        · rw [← Option.some.inj h] at hp
          cases hp
        · obtain rfl := Option.some.inj h
          obtain ⟨rfl, rfl⟩ := Place.leased.inj (hp₀.symm.trans hp)
          exact ⟨rfl, hmem⟩
      · rename_i hnot
        obtain rfl := Option.some.inj h
        exact absurd hp (hnot _ _)
    · rintro ⟨rfl, hmem⟩
      simp [hp, hmem]

/-- The end of the leases leaves scheduled jobs alone, and makes none. -/
theorem Image.expire_scheduled_iff {deadline : Int64} (hp : js.place = .scheduled attempt deadline) :
    (a.expire now kept keys).jobs id = some js ↔ a.jobs id = some js := by
  cases hJ : a.jobs id with
  | none => simp [expire, onJobs, hJ]
  | some js₀ =>
    simp only [expire, onJobs, hJ, Option.bind_some, JobState.expiredBy]
    split
    · rename_i n t hp₀
      constructor
      · intro h
        split_ifs at h
        · rw [← Option.some.inj h] at hp
          cases hp
        · rw [← Option.some.inj h] at hp
          cases hp
        · exact h
      · intro h
        rw [Option.some.inj h] at hp₀
        cases hp.symm.trans hp₀
    · rfl

/-- The end of retention leaves the jobs alone that are not dead. -/
theorem Image.retain_live_iff (hlive : ¬ js.place.IsDead) :
    (a.retain keys).jobs id = some js ↔ a.jobs id = some js := by
  cases hJ : a.jobs id with
  | none => simp [retain, onJobs, hJ]
  | some js₀ =>
    simp only [retain, onJobs, hJ, Option.bind_some, JobState.retainedBy]
    split
    · rename_i n t cause reason hp₀
      constructor
      · intro h
        split_ifs at h
        exact h
      · intro h
        rw [Option.some.inj h] at hp₀
        exact absurd (by rw [hp₀]; trivial) hlive
    · rfl

/-- The jobs that stay dead are those whose keys are not processed. -/
theorem Image.retain_dead_iff {failedAt : Int64} {cause : DeadLetterCause} {reason : Option String}
    (hp : js.place = .dead attempt failedAt cause reason) :
    (a.retain keys).jobs id = some js ↔ a.jobs id = some js ∧ js.deadKey id failedAt ∉ keys := by
  cases hJ : a.jobs id with
  | none => simp [retain, onJobs, hJ]
  | some js₀ =>
    simp only [retain, onJobs, hJ, Option.bind_some, JobState.retainedBy, Option.some.injEq]
    constructor
    · intro h
      split at h
      · rename_i n t c r hp₀
        split_ifs at h with hmem
        obtain rfl := Option.some.inj h
        obtain ⟨rfl, rfl, rfl, rfl⟩ := Place.dead.inj (hp₀.symm.trans hp)
        exact ⟨rfl, hmem⟩
      · rename_i hnot
        obtain rfl := Option.some.inj h
        exact absurd hp (hnot _ _ _ _)
    · rintro ⟨rfl, hmem⟩
      simp [hp, hmem]

/-- Promotion leaves the dead letters alone. -/
theorem Image.deadEntry_promote (a : Image) (keys : List Bytes) :
    rowsOf JobState.deadEntry (a.promote keys).jobs = rowsOf JobState.deadEntry a.jobs := by
  refine rowsOf_onJobs a fun id js => ?_
  unfold JobState.promotedBy
  split
  · rename_i hplace
    split_ifs <;> simp [JobState.deadEntry, hplace]
  · rfl

end Phases

/-! ### The rows after a sweep -/

section Sweep

variable [Prost] {a a' : Image} {rows rows' : Rows} {idx idx' : Indexes} {now : Int64} {budget : ℕ}
  {cutoff : Option Int64} {kept : Bool} {n : ℕ}

/-- The keys of the timers, the dead letters and the tombstones after a sweep. -/
structure SweptKeys (now : Int64) (budget : ℕ) (cutoff : Option Int64) (a : Image) (rows : Rows)
    (idx : Indexes) (kept : Bool) (rows' : Rows) (idx' : Indexes) : Prop where
  scheduled : ∀ key, key ∈ rows'.scheduled ↔
    key ∈ rows.scheduled ∧ key ∉ idx.scheduled.popAll now budget
  leases : ∀ key, key ∈ rows'.leases ↔ key ∈ rows.leases ∧ key ∉ idx.leases.popAll now budget
  dedupTimers : ∀ key, key ∈ rows'.dedupTimers ↔
    key ∈ rows.dedupTimers ∧ key ∉ idx.dedupTimers.popAll now budget
  closing : ∀ queue : String, idx'.closing[queue]? = (idx.closing[queue]?).filter fun t => now < t
  metadata : ∀ key, key ∈ rows'.metadata ↔ key ∈ rows.metadata ∧
    ∀ (queue : String) (deadline : Int64), idx.closing[queue]? = some deadline →
      deadline ≤ now → key ≠ closingKey queue
  deadLetter : ∃ old, (∀ key, key ∈ rows'.deadLetter ↔ (key ∈ rows.deadLetter ∨
      a.BuriesWith now kept (idx.leases.popAll now budget) key) ∧ key ∉ old) ∧
    (cutoff = none → old = []) ∧
    ∀ limit, cutoff = some limit → (∀ key ∈ old, ¬ limit < deadlineOf key) ∧
      -- without a lease that ends, the phase pops what the index had before the sweep
      (idx.leases.popAll now budget = [] → old = idx.deadLetter.popAll limit budget)

theorem Represents.mem_scheduled_iff_exists (h : Represents a rows idx) {key : Bytes} :
    key ∈ rows.scheduled ↔ ∃ id js attempt deadline, a.jobs id = some js ∧
      js.place = .scheduled attempt deadline ∧ key = TimerKey.encode { deadline, jobId := id } := by
  rw [h.mem_scheduled_iff]
  constructor
  · intro hkey
    obtain ⟨queue, hqueue⟩ := ExtTreeMap.mem_iff_exists.mp hkey
    obtain ⟨id, js, attempt, deadline, hJ, hp, rfl, -⟩ := h.jobs.of_scheduled_entry hqueue
    exact ⟨id, js, attempt, deadline, hJ, hp, rfl⟩
  · rintro ⟨id, js, attempt, deadline, hJ, hp, rfl⟩
    exact ExtTreeMap.mem_iff_exists.mpr ⟨_, h.jobs.get_scheduled_entry hJ hp⟩

theorem Represents.mem_leases_iff_exists (h : Represents a rows idx) {key : Bytes} :
    key ∈ rows.leases ↔ ∃ id js attempt expires, a.jobs id = some js ∧
      js.place = .leased attempt expires ∧
      key = TimerKey.encode { deadline := expires, jobId := id } := by
  rw [h.mem_leases_iff]
  constructor
  · intro hkey
    obtain ⟨queue, hqueue⟩ := ExtTreeMap.mem_iff_exists.mp hkey
    obtain ⟨id, js, attempt, expires, hJ, hp, rfl, -⟩ := h.jobs.of_lease_entry hqueue
    exact ⟨id, js, attempt, expires, hJ, hp, rfl⟩
  · rintro ⟨id, js, attempt, expires, hJ, hp, rfl⟩
    exact ExtTreeMap.mem_iff_exists.mpr ⟨_, h.jobs.get_lease_entry hJ hp⟩

theorem Represents.mem_deadLetter_iff_exists (h : Represents a rows idx) {key : Bytes} :
    key ∈ rows.deadLetter ↔ ∃ id js attempt failedAt cause reason, a.jobs id = some js ∧
      js.place = .dead attempt failedAt cause reason ∧ key = js.deadKey id failedAt := by
  rw [h.mem_deadLetter_iff]
  constructor
  · intro hkey
    obtain ⟨queue, hqueue⟩ := ExtTreeMap.mem_iff_exists.mp hkey
    obtain ⟨id, js, attempt, failedAt, cause, reason, hJ, hp, rfl, -⟩ := h.jobs.of_dead_entry hqueue
    exact ⟨id, js, attempt, failedAt, cause, reason, hJ, hp, rfl⟩
  · rintro ⟨id, js, attempt, failedAt, cause, reason, hJ, hp, rfl⟩
    exact ExtTreeMap.mem_iff_exists.mpr ⟨_, h.jobs.get_dead_entry hJ hp⟩

theorem Represents.mem_dedupTimers_iff_exists (h : Represents a rows idx) {key : Bytes} :
    key ∈ rows.dedupTimers ↔ ∃ name d, a.dedup name = some d ∧ key = dedupTimer name d.deadline := by
  rw [h.mem_dedupTimers_iff]
  constructor
  · intro hkey
    obtain ⟨queue, hqueue⟩ := ExtTreeMap.mem_iff_exists.mp hkey
    obtain ⟨name, d, hd, rfl, -⟩ := h.dedup.of_entry hqueue
    exact ⟨name, d, hd, rfl⟩
  · rintro ⟨name, d, hd, rfl⟩
    exact ExtTreeMap.mem_iff_exists.mpr ⟨_, h.dedup.get_entry hd⟩

theorem Represents.mem_metadata_iff_exists (h : Represents a rows idx) {key : Bytes} :
    key ∈ rows.metadata ↔ (∃ queue deadline, a.closing queue = some deadline ∧
      key = closingKey queue) ∨ key = auditSeqKey ∧ a.audit ≠ [] := by
  rw [ExtTreeMap.mem_iff_exists]
  constructor
  · rintro ⟨v, hv⟩
    obtain ⟨owner, -, hrow⟩ := h.metadata.metadata.row_of_get hv
    cases owner with
    | none =>
      rw [metaRow] at hrow
      split_ifs at hrow with hlen
      obtain ⟨rfl, -⟩ := Prod.mk.inj (Option.some.inj hrow)
      exact .inr ⟨rfl, fun hnil => hlen (by rw [hnil]; rfl)⟩
    | some queue =>
      obtain ⟨deadline, hclosing, hrow⟩ := Option.map_eq_some_iff.mp hrow
      exact .inl ⟨queue, deadline, hclosing, (Prod.mk.inj hrow).1.symm⟩
  · rintro (⟨queue, deadline, hclosing, rfl⟩ | ⟨rfl, haudit⟩)
    · exact ⟨_, h.metadata.metadata.get_of (i := some queue) (by rw [metaRow, hclosing]; rfl)⟩
    · refine ⟨_, h.metadata.metadata.get_of (i := none) (if_neg fun hlen => haudit ?_)⟩
      exact List.length_eq_zero_iff.mp hlen

section Phases

variable {due expired stale old : List Bytes} {key : Bytes}

/-- The timers of scheduled jobs after the phases of a sweep. -/
theorem Represents.mem_scheduled_of_phases (h : Represents a rows idx)
    (h' : Represents
      (((((a.lapse now).promote due).expire now kept expired).forget stale).retain old) rows' idx') :
    key ∈ rows'.scheduled ↔ key ∈ rows.scheduled ∧ key ∉ due := by
  rw [h.mem_scheduled_iff_exists, h'.mem_scheduled_iff_exists]
  constructor
  · rintro ⟨id, js, attempt, deadline, hJ, hp, rfl⟩
    have hbefore := (Image.expire_scheduled_iff hp).mp
      ((Image.retain_live_iff (by simp [hp, Place.IsDead])).mp hJ)
    obtain ⟨hJ, hnot⟩ := (Image.promote_scheduled_iff hp).mp hbefore
    exact ⟨⟨id, js, attempt, deadline, hJ, hp, rfl⟩, hnot⟩
  · rintro ⟨⟨id, js, attempt, deadline, hJ, hp, rfl⟩, hnot⟩
    refine ⟨id, js, attempt, deadline, ?_, hp, rfl⟩
    refine (Image.retain_live_iff (by simp [hp, Place.IsDead])).mpr
      ((Image.expire_scheduled_iff hp).mpr ?_)
    exact (Image.promote_scheduled_iff hp).mpr ⟨hJ, hnot⟩

/-- The timers of leases after the phases of a sweep. -/
theorem Represents.mem_leases_of_phases (h : Represents a rows idx)
    (h' : Represents
      (((((a.lapse now).promote due).expire now kept expired).forget stale).retain old) rows' idx') :
    key ∈ rows'.leases ↔ key ∈ rows.leases ∧ key ∉ expired := by
  rw [h.mem_leases_iff_exists, h'.mem_leases_iff_exists]
  constructor
  · rintro ⟨id, js, attempt, expires, hJ, hp, rfl⟩
    obtain ⟨hbefore, hnot⟩ := (Image.expire_leased_iff hp).mp
      ((Image.retain_live_iff (by simp [hp, Place.IsDead])).mp hJ)
    have hJ := (Image.promote_jobs_eq_some_iff (by simp [hp]) (by simp [hp])).mp hbefore
    exact ⟨⟨id, js, attempt, expires, hJ, hp, rfl⟩, hnot⟩
  · rintro ⟨⟨id, js, attempt, expires, hJ, hp, rfl⟩, hnot⟩
    refine ⟨id, js, attempt, expires, ?_, hp, rfl⟩
    refine (Image.retain_live_iff (by simp [hp, Place.IsDead])).mpr
      ((Image.expire_leased_iff hp).mpr ⟨?_, hnot⟩)
    exact (Image.promote_jobs_eq_some_iff (by simp [hp]) (by simp [hp])).mpr hJ

/-- The timers of idempotency keys after the phases of a sweep. -/
theorem Represents.mem_dedupTimers_of_phases (h : Represents a rows idx)
    (h' : Represents
      (((((a.lapse now).promote due).expire now kept expired).forget stale).retain old) rows' idx') :
    key ∈ rows'.dedupTimers ↔ key ∈ rows.dedupTimers ∧ key ∉ stale := by
  rw [h.mem_dedupTimers_iff_exists, h'.mem_dedupTimers_iff_exists]
  constructor
  · rintro ⟨name, d, hd, rfl⟩
    obtain ⟨hd, hnot⟩ := Option.filter_eq_some_iff.mp hd
    exact ⟨⟨name, d, hd, rfl⟩, of_decide_eq_true hnot⟩
  · rintro ⟨⟨name, d, hd, rfl⟩, hnot⟩
    exact ⟨name, d, Option.filter_eq_some_iff.mpr ⟨hd, decide_eq_true hnot⟩, rfl⟩

/-- The tombstones after the phases of a sweep. -/
theorem Represents.mem_metadata_of_phases (h : Represents a rows idx)
    (h' : Represents
      (((((a.lapse now).promote due).expire now kept expired).forget stale).retain old) rows' idx') :
    key ∈ rows'.metadata ↔ key ∈ rows.metadata ∧
      ∀ (queue : String) (deadline : Int64), idx.closing[queue]? = some deadline →
        deadline ≤ now → key ≠ closingKey queue := by
  rw [h.mem_metadata_iff_exists, h'.mem_metadata_iff_exists]
  simp only [h.metadata.closing]
  constructor
  · rintro (⟨queue, deadline, hclosing, rfl⟩ | ⟨rfl, haudit⟩)
    · obtain ⟨hclosing, hlater⟩ := Option.filter_eq_some_iff.mp hclosing
      refine ⟨.inl ⟨queue, deadline, hclosing, rfl⟩, fun queue' deadline' hclosing' hdue hkey => ?_⟩
      obtain rfl := closingKey_injective hkey
      obtain rfl := Option.some.inj (hclosing.symm.trans hclosing')
      exact Int64.not_le.mpr (of_decide_eq_true hlater) hdue
    · refine ⟨.inr ⟨rfl, haudit⟩, fun queue deadline _ _ hkey => ?_⟩
      have hown := congrArg metaOwner hkey
      rw [metaOwner_auditSeqKey, metaOwner_closingKey] at hown
      cases hown
  · rintro ⟨⟨queue, deadline, hclosing, rfl⟩ | ⟨rfl, haudit⟩, hnot⟩
    · refine .inl ⟨queue, deadline, Option.filter_eq_some_iff.mpr ⟨hclosing, ?_⟩, rfl⟩
      exact decide_eq_true (Int64.not_le.mp fun hdue => hnot queue deadline hclosing hdue rfl)
    · exact .inr ⟨rfl, haudit⟩

/-- The dead letters after the phases of a sweep: some expire, and the end of a last lease adds
one. -/
theorem Represents.mem_deadLetter_of_phases (h : Represents a rows idx)
    (h' : Represents
      (((((a.lapse now).promote due).expire now kept expired).forget stale).retain old) rows' idx') :
    key ∈ rows'.deadLetter ↔
      (key ∈ rows.deadLetter ∨ a.BuriesWith now kept expired key) ∧ key ∉ old := by
  rw [h.mem_deadLetter_iff_exists, h'.mem_deadLetter_iff_exists]
  constructor
  · rintro ⟨id, js, attempt, failedAt, cause, reason, hJ, hp, rfl⟩
    obtain ⟨hbefore, hnot⟩ := (Image.retain_dead_iff hp).mp hJ
    refine ⟨?_, hnot⟩
    rcases (a.dead_before_retain_iff now kept _ _ hp).mp hbefore with
      hJ₀ | ⟨hkept, js₀, expires, hJ₀, hp₀, hmem, hlast, rfl⟩
    · exact .inl ⟨id, js, attempt, failedAt, cause, reason, hJ₀, hp, rfl⟩
    · obtain ⟨-, rfl, -, -⟩ := Place.dead.inj hp
      exact .inr ⟨hkept, id, js₀, attempt, expires, hJ₀, hp₀, hmem, hlast, rfl⟩
  · rintro ⟨⟨id, js, attempt, failedAt, cause, reason, hJ, hp, rfl⟩ |
      ⟨hkept, id, js, attempt, expires, hJ, hp, hmem, hlast, rfl⟩, hnot⟩
    · refine ⟨id, js, attempt, failedAt, cause, reason, ?_, hp, rfl⟩
      exact (Image.retain_dead_iff hp).mpr
        ⟨(a.dead_before_retain_iff now kept _ _ hp).mpr (.inl hJ), hnot⟩
    · refine ⟨id, { js with place := .dead attempt now .leaseExpired none }, attempt, now, _, _,
        (Image.retain_dead_iff rfl).mpr ⟨?_, hnot⟩, rfl, rfl⟩
      exact (a.dead_before_retain_iff now kept _ _ rfl).mpr
        (.inr ⟨hkept, js, expires, hJ, hp, hmem, hlast, rfl⟩)

end Phases

/-- What a sweep does to the abstract state, in the rows. -/
theorem Swept.keys (hswept : Swept now budget cutoff kept a n a') (h : Represents a rows idx)
    (h' : Represents a' rows' idx') :
    SweptKeys now budget cutoff a rows idx kept rows' idx' := by
  obtain ⟨due, expired, stale, old, -, rfl, hfirst, hold⟩ := hswept
  obtain ⟨rfl, rfl, rfl⟩ := hfirst _ _ h
  refine ⟨fun key => h.mem_scheduled_of_phases h', fun key => h.mem_leases_of_phases h',
    fun key => h.mem_dedupTimers_of_phases h', fun queue => ?_,
    fun key => h.mem_metadata_of_phases h', old, fun key => h.mem_deadLetter_of_phases h',
    fun hnone => ?_, fun limit hlimit => ?_⟩
  · rw [h'.metadata.closing, h.metadata.closing]
    rfl
  · subst hnone
    exact hold
  · subst hlimit
    obtain ⟨rows₁, idx₁, h₁, rfl⟩ := hold
    refine ⟨fun key hkey => (TimerIndex.mem_dueKeys_of_mem_popAll hkey).2, fun hnone => ?_⟩
    rw [hnone, Image.expire_nil] at h₁
    rw [h₁.jobs.dead.index_eq h.jobs.dead (Image.deadEntry_promote _ _)]

/-! ### The due test agrees with the sweep -/

omit [Prost] in
/-- The keyspaces of the timers, the dead letters and the tombstones. -/
def sweptKeyspaces : List KeyspaceName := [.scheduled, .leases, .dedupTimers, .deadLetter, .metadata]

omit [Prost] in
/-- A timer, a dead letter or a tombstone is gone. -/
def Rows.Loses (rows rows' : Rows) : Prop :=
  ∃ ks ∈ sweptKeyspaces, ∃ key, key ∈ rows.get ks ∧ key ∉ rows'.get ks

omit [Prost] in
/-- A popped key was there, and is gone. -/
theorem exists_lost {m m' : Keyspace} {timers : TimerIndex} {until_ : Int64} (hbudget : 1 ≤ budget)
    (hindex : ∀ key, key ∈ timers.keys → key ∈ m)
    (hm : ∀ key, key ∈ m' → key ∉ timers.popAll until_ budget) (hdue : timers.FirstDueAt until_) :
    ∃ key, key ∈ m ∧ key ∉ m' := by
  obtain ⟨key, hkey⟩ := List.exists_mem_of_ne_nil _
    ((TimerIndex.popAll_ne_nil_iff hbudget).mpr hdue)
  exact ⟨key, hindex key (TimerIndex.mem_dueKeys_of_mem_popAll hkey).1,
    fun hmem => hm key hmem hkey⟩

/-- A sweep removes something exactly when it is due. -/
theorem SweptKeys.loses_iff {retentionMs : UInt64}
    (hkeys : SweptKeys now budget (retentionCutoff retentionMs now) a rows idx kept rows' idx')
    (h : Represents a rows idx) (hbudget : 1 ≤ budget) (hnow : 0 ≤ now.toInt)
    (hlt : now.toInt < 2 ^ 63 - 1) :
    SweepDue idx retentionMs now ↔ rows.Loses rows' := by
  obtain ⟨old, hdead, hnone, hsome⟩ := hkeys.deadLetter
  have hpops : ∀ {timers : TimerIndex} {until_ : Int64} {key : Bytes},
      key ∈ timers.popAll until_ budget → timers.FirstDueAt until_ := fun hkey =>
    (TimerIndex.popAll_ne_nil_iff hbudget).mp (List.ne_nil_of_mem hkey)
  rw [sweepDue_iff hnow hlt]
  constructor
  · have hleases : idx.leases.FirstDueAt now → rows.Loses rows' := fun hdue =>
      ⟨.leases, by decide, exists_lost hbudget (fun _ => h.mem_leases_iff.mpr)
        (fun key hkey => ((hkeys.leases key).mp hkey).2) hdue⟩
    rintro (hdue | hdue | hdue | ⟨queue, deadline, hclosing, hdue⟩ | ⟨cutoff, hcutoff, hdue⟩)
    · exact ⟨.scheduled, by decide, exists_lost hbudget (fun _ => h.mem_scheduled_iff.mpr)
        (fun key hkey => ((hkeys.scheduled key).mp hkey).2) hdue⟩
    · exact hleases hdue
    · exact ⟨.dedupTimers, by decide, exists_lost hbudget (fun _ => h.mem_dedupTimers_iff.mpr)
        (fun key hkey => ((hkeys.dedupTimers key).mp hkey).2) hdue⟩
    · refine ⟨.metadata, by decide, closingKey queue, h.mem_metadata_iff_exists.mpr ?_, fun hkey => ?_⟩
      · exact .inl ⟨queue, deadline, (h.metadata.closing queue).symm.trans hclosing, rfl⟩
      · exact ((hkeys.metadata _).mp hkey).2 queue deadline hclosing hdue rfl
    · -- a lease that ends may bury a job first, but then the lease is gone
      by_cases hexpired : idx.leases.popAll now budget = []
      · have hold := (hsome cutoff hcutoff).2 hexpired
        refine ⟨.deadLetter, by decide, exists_lost hbudget (fun _ => h.mem_deadLetter_iff.mpr)
          (fun key hkey => ?_) hdue⟩
        rw [← hold]
        exact ((hdead key).mp hkey).2
      · exact hleases ((TimerIndex.popAll_ne_nil_iff hbudget).mp hexpired)
  · rintro ⟨ks, hks, key, hkey, hgone⟩
    simp only [sweptKeyspaces, List.mem_cons, List.not_mem_nil, or_false] at hks
    rcases hks with rfl | rfl | rfl | rfl | rfl
    · exact .inl (hpops (by_contra fun hnot => hgone ((hkeys.scheduled key).mpr ⟨hkey, hnot⟩)))
    · exact .inr (.inl (hpops (by_contra fun hnot => hgone ((hkeys.leases key).mpr ⟨hkey, hnot⟩))))
    · exact .inr (.inr (.inl (hpops
        (by_contra fun hnot => hgone ((hkeys.dedupTimers key).mpr ⟨hkey, hnot⟩)))))
    · have hold : key ∈ old := by_contra fun hnot => hgone ((hdead key).mpr ⟨.inl hkey, hnot⟩)
      by_cases hexpired : idx.leases.popAll now budget = []
      · cases hcutoff : retentionCutoff retentionMs now with
        | none =>
          rw [hnone hcutoff] at hold
          cases hold
        | some limit =>
          rw [(hsome limit hcutoff).2 hexpired] at hold
          exact .inr (.inr (.inr (.inr ⟨limit, rfl, hpops hold⟩)))
      · exact .inr (.inl ((TimerIndex.popAll_ne_nil_iff hbudget).mp hexpired))
    · by_contra hnot
      refine hgone ((hkeys.metadata key).mpr ⟨hkey, fun queue deadline hclosing hdue _ => ?_⟩)
      exact hnot (.inr (.inr (.inr (.inl ⟨queue, deadline, hclosing, hdue⟩))))

/-! ### What is due -/

omit [Prost] in
/-- A timer whose time has come, a dead letter whose retention is over, or a tombstone that has
lapsed. -/
def Rows.IsDue (rows : Rows) (retentionMs : UInt64) (now : Int64) : KeyspaceName → Bytes → Prop
  | .scheduled, key => key ∈ rows.scheduled ∧ deadlineOf key ≤ now
  | .leases, key => key ∈ rows.leases ∧ deadlineOf key ≤ now
  | .dedupTimers, key => key ∈ rows.dedupTimers ∧ deadlineOf key ≤ now
  | .deadLetter, key => key ∈ rows.deadLetter ∧ 0 < retentionMs ∧
      (deadlineOf key).toInt + retentionMs.toNat ≤ now.toInt
  | .metadata, key => ∃ queue value deadline, key = closingKey queue ∧
      rows.metadata[key]? = some value ∧ deadlineOfRow value = some deadline ∧ deadline ≤ now
  | _, _ => False

omit [Prost] in
/-- The first key of an index has the earliest deadline. -/
theorem TimerIndex.firstDueAt_iff {timers : TimerIndex}
    (htimes : ∀ key ∈ timers.keys, StartsWithTime key) {now : Int64} :
    timers.FirstDueAt now ↔ ∃ key ∈ timers.keys, deadlineOf key ≤ now := by
  rw [FirstDueAt, earliest]
  constructor
  · rintro ⟨deadline, hfirst, hle⟩
    obtain ⟨⟨key, queue⟩, hhead, rfl⟩ := Option.map_eq_some_iff.mp hfirst
    have hkey := ExtTreeMap.mem_toList_iff_getElem?_eq_some.mp (List.mem_of_head? hhead)
    exact ⟨key, ExtTreeMap.mem_iff_exists.mpr ⟨_, hkey⟩, hle⟩
  · rintro ⟨key, hkey, hle⟩
    obtain ⟨queue, hqueue⟩ := ExtTreeMap.mem_iff_exists.mp hkey
    cases hhead : timers.keys.toList.head? with
    | none =>
      have hmem := ExtTreeMap.mem_toList_iff_getElem?_eq_some.mpr hqueue
      rw [List.head?_eq_none_iff.mp hhead] at hmem
      cases hmem
    | some entry =>
      obtain ⟨first, owner⟩ := entry
      have hfirst := ExtTreeMap.mem_toList_iff_getElem?_eq_some.mp (List.mem_of_head? hhead)
      refine ⟨deadlineOf first, rfl, Int64.le_trans ?_ hle⟩
      exact (htimes _ (ExtTreeMap.mem_iff_exists.mpr ⟨_, hfirst⟩)).deadlineOf_le (htimes _ hkey)
        (ExtTreeMap.isLE_of_head?_toList hhead hqueue)

omit [Prost] in
/-- The cutoff of the retention, in unbounded integers. -/
theorem le_retentionCutoff_iff {retentionMs : UInt64} {failedAt : Int64} (hnow : 0 ≤ now.toInt)
    (hlt : now.toInt < 2 ^ 63 - 1) (hfailed : 0 ≤ failedAt.toInt) :
    (∃ limit, retentionCutoff retentionMs now = some limit ∧ failedAt ≤ limit) ↔
      0 < retentionMs ∧ failedAt.toInt + retentionMs.toNat ≤ now.toInt := by
  rw [retentionCutoff]
  split_ifs with hkept
  · simp only [Option.some.injEq, exists_eq_left', hkept, true_and]
    rw [Int64.le_iff_toInt_le, saturatingSub, toInt_saturate, i64OfU64, toInt_saturate]
    omega
  · simp [hkept]

/-- A tombstone that has lapsed. -/
theorem Represents.isDue_metadata_iff (h : Represents a rows idx) {retentionMs : UInt64}
    {key : Bytes} : rows.IsDue retentionMs now .metadata key ↔
      ∃ (queue : String) (deadline : Int64), idx.closing[queue]? = some deadline ∧
        deadline ≤ now ∧ key = closingKey queue := by
  constructor
  · rintro ⟨queue, value, deadline, rfl, hvalue, hdeadline, hdue⟩
    obtain ⟨owner, hown, hrow⟩ := h.metadata.metadata.row_of_get hvalue
    rw [metaOwner_closingKey] at hown
    obtain rfl := Option.some.inj hown
    obtain ⟨deadline', hclosing, hrow⟩ := Option.map_eq_some_iff.mp hrow
    rw [← (Prod.mk.inj hrow).2, deadlineOfRow_i64] at hdeadline
    obtain rfl := Option.some.inj hdeadline
    exact ⟨queue, deadline', (h.metadata.closing queue).trans hclosing, hdue, rfl⟩
  · rintro ⟨queue, deadline, hclosing, hdue, rfl⟩
    have hrow : metaRow a.closing a.audit.length (some queue) =
        some (closingKey queue, KeyWriter.i64 deadline) := by
      rw [metaRow, (h.metadata.closing queue).symm.trans hclosing]
      rfl
    exact ⟨queue, _, deadline, rfl, h.metadata.metadata.get_of hrow, deadlineOfRow_i64 deadline,
      hdue⟩

/-- The due test finds whatever is due. -/
theorem Represents.sweepDue_iff_isDue (h : Represents a rows idx) (ha : a.Orderly)
    {retentionMs : UInt64} (hnow : 0 ≤ now.toInt) (hlt : now.toInt < 2 ^ 63 - 1) :
    SweepDue idx retentionMs now ↔ ∃ ks key, rows.IsDue retentionMs now ks key := by
  have hfailed : ∀ key ∈ idx.deadLetter.keys, 0 ≤ (deadlineOf key).toInt := by
    intro key hkey
    obtain ⟨t, rest, ht, rfl⟩ := h.deadLetter_startsWithTime ha key hkey
    rwa [deadlineOf_append]
  rw [sweepDue_iff hnow hlt, TimerIndex.firstDueAt_iff (h.scheduled_startsWithTime ha),
    TimerIndex.firstDueAt_iff (h.leases_startsWithTime ha),
    TimerIndex.firstDueAt_iff (h.dedupTimers_startsWithTime ha)]
  simp only [TimerIndex.firstDueAt_iff (h.deadLetter_startsWithTime ha)]
  constructor
  · rintro (⟨key, hkey, hdue⟩ | ⟨key, hkey, hdue⟩ | ⟨key, hkey, hdue⟩ |
      ⟨queue, deadline, hclosing, hdue⟩ | ⟨limit, hlimit, key, hkey, hdue⟩)
    · exact ⟨.scheduled, key, h.mem_scheduled_iff.mpr hkey, hdue⟩
    · exact ⟨.leases, key, h.mem_leases_iff.mpr hkey, hdue⟩
    · exact ⟨.dedupTimers, key, h.mem_dedupTimers_iff.mpr hkey, hdue⟩
    · exact ⟨.metadata, _, h.isDue_metadata_iff.mpr ⟨queue, deadline, hclosing, hdue, rfl⟩⟩
    · exact ⟨.deadLetter, key, h.mem_deadLetter_iff.mpr hkey,
        (le_retentionCutoff_iff hnow hlt (hfailed key hkey)).mp ⟨limit, hlimit, hdue⟩⟩
  · rintro ⟨ks, key, hdue⟩
    cases ks with
    | scheduled => exact .inl ⟨key, h.mem_scheduled_iff.mp hdue.1, hdue.2⟩
    | leases => exact .inr (.inl ⟨key, h.mem_leases_iff.mp hdue.1, hdue.2⟩)
    | dedupTimers => exact .inr (.inr (.inl ⟨key, h.mem_dedupTimers_iff.mp hdue.1, hdue.2⟩))
    | metadata =>
      obtain ⟨queue, deadline, hclosing, hdue, -⟩ := h.isDue_metadata_iff.mp hdue
      exact .inr (.inr (.inr (.inl ⟨queue, deadline, hclosing, hdue⟩)))
    | deadLetter =>
      have hkey := h.mem_deadLetter_iff.mp hdue.1
      obtain ⟨limit, hlimit, hle⟩ :=
        (le_retentionCutoff_iff hnow hlt (hfailed key hkey)).mpr hdue.2
      exact .inr (.inr (.inr (.inr ⟨limit, hlimit, key, hkey, hle⟩)))
    | jobs | payloads | inflight | ready | dedup | audit => exact hdue.elim

/-! ### Sweeps in a row -/

/-- What a sweep removes was due. -/
theorem SweptKeys.isDue_of_lost {retentionMs : UInt64}
    (hkeys : SweptKeys now budget (retentionCutoff retentionMs now) a rows idx kept rows' idx')
    (h : Represents a rows idx) (ha : a.Orderly) (hnow : 0 ≤ now.toInt)
    (hlt : now.toInt < 2 ^ 63 - 1) {ks : KeyspaceName} (hks : ks ∈ sweptKeyspaces) {key : Bytes}
    (hkey : key ∈ rows.get ks) (hgone : key ∉ rows'.get ks) : rows.IsDue retentionMs now ks key := by
  have hpops : ∀ {timers : TimerIndex}, key ∈ timers.popAll now budget → deadlineOf key ≤ now :=
    fun hmem => Int64.not_lt.mp (TimerIndex.mem_dueKeys_of_mem_popAll hmem).2
  simp only [sweptKeyspaces, List.mem_cons, List.not_mem_nil, or_false] at hks
  rcases hks with rfl | rfl | rfl | rfl | rfl
  · exact ⟨hkey, hpops (by_contra fun hnot => hgone ((hkeys.scheduled key).mpr ⟨hkey, hnot⟩))⟩
  · exact ⟨hkey, hpops (by_contra fun hnot => hgone ((hkeys.leases key).mpr ⟨hkey, hnot⟩))⟩
  · exact ⟨hkey, hpops (by_contra fun hnot => hgone ((hkeys.dedupTimers key).mpr ⟨hkey, hnot⟩))⟩
  · obtain ⟨old, hdead, hnone, hsome⟩ := hkeys.deadLetter
    have hold : key ∈ old := by_contra fun hnot => hgone ((hdead key).mpr ⟨.inl hkey, hnot⟩)
    obtain ⟨t, rest, ht, rfl⟩ := h.deadLetter_startsWithTime ha key (h.mem_deadLetter_iff.mp hkey)
    refine ⟨hkey, ?_⟩
    rw [deadlineOf_append]
    refine (le_retentionCutoff_iff hnow hlt ht).mp ?_
    cases hcutoff : retentionCutoff retentionMs now with
    | none =>
      rw [hnone hcutoff] at hold
      cases hold
    | some limit =>
      have hdue := (hsome limit hcutoff).1 _ hold
      rw [deadlineOf_append] at hdue
      exact ⟨limit, rfl, Int64.not_lt.mp hdue⟩
  · refine h.isDue_metadata_iff.mpr ?_
    by_contra hnot
    refine hgone ((hkeys.metadata key).mpr ⟨hkey, fun queue deadline hclosing hdue heq => ?_⟩)
    exact hnot ⟨queue, deadline, hclosing, hdue, heq⟩

/-- Nothing becomes due by a sweep. -/
theorem SweptKeys.isDue_of_isDue {retentionMs : UInt64}
    (hkeys : SweptKeys now budget (retentionCutoff retentionMs now) a rows idx kept rows' idx')
    (h : Represents a rows idx) (h' : Represents a' rows' idx') {ks : KeyspaceName} {key : Bytes}
    (hdue : rows'.IsDue retentionMs now ks key) : rows.IsDue retentionMs now ks key := by
  cases ks with
  | scheduled => exact ⟨((hkeys.scheduled key).mp hdue.1).1, hdue.2⟩
  | leases => exact ⟨((hkeys.leases key).mp hdue.1).1, hdue.2⟩
  | dedupTimers => exact ⟨((hkeys.dedupTimers key).mp hdue.1).1, hdue.2⟩
  | metadata =>
    obtain ⟨queue, deadline, hclosing, hlate, rfl⟩ := h'.isDue_metadata_iff.mp hdue
    rw [hkeys.closing] at hclosing
    exact h.isDue_metadata_iff.mpr
      ⟨queue, deadline, (Option.filter_eq_some_iff.mp hclosing).1, hlate, rfl⟩
  | deadLetter =>
    obtain ⟨hkey, hkept, hlate⟩ := hdue
    obtain ⟨old, hdead, -⟩ := hkeys.deadLetter
    rcases ((hdead key).mp hkey).1 with hkey | hburied
    · exact ⟨hkey, hkept, hlate⟩
    · -- a job that the sweep has given up has failed now, and its retention has not begun
      rw [hburied.deadlineOf_eq] at hlate
      have hpos := UInt64.lt_iff_toNat_lt.mp hkept
      rw [show UInt64.toNat 0 = 0 from rfl] at hpos
      omega
  | jobs | payloads | inflight | ready | dedup | audit => exact hdue.elim

omit [Prost] in
/-- What is due of the rows. -/
def Rows.dueSet (rows : Rows) (retentionMs : UInt64) (now : Int64) : Set (KeyspaceName × Bytes) :=
  { p | rows.IsDue retentionMs now p.1 p.2 }

omit [Prost] in
theorem Rows.IsDue.mem {rows : Rows} {retentionMs : UInt64} {ks : KeyspaceName} {key : Bytes}
    (h : rows.IsDue retentionMs now ks key) : ks ∈ sweptKeyspaces ∧ key ∈ rows.get ks := by
  cases ks with
  | scheduled | leases | dedupTimers | deadLetter => exact ⟨by decide, h.1⟩
  | metadata =>
    obtain ⟨queue, value, deadline, -, hvalue, -⟩ := h
    exact ⟨by decide, ExtTreeMap.mem_iff_exists.mpr ⟨value, hvalue⟩⟩
  | jobs | payloads | inflight | ready | dedup | audit => exact h.elim

omit [Prost] in
theorem Rows.finite_dueSet (rows : Rows) (retentionMs : UInt64) (now : Int64) :
    (rows.dueSet retentionMs now).Finite := by
  refine (List.finite_toSet
    (sweptKeyspaces.flatMap fun ks => (rows.get ks).keys.map (Prod.mk ks))).subset ?_
  rintro ⟨ks, key⟩ hdue
  obtain ⟨hks, hkey⟩ := Rows.IsDue.mem hdue
  exact List.mem_flatMap.mpr ⟨ks, hks, List.mem_map_of_mem (ExtTreeMap.mem_keys.mpr hkey)⟩

omit [Prost] in
theorem Image.Orderly.forget (h : a.Orderly) (keys : List Bytes) : (a.forget keys).Orderly :=
  ⟨h.jobs, fun name d hd => h.dedup name d (Option.filter_eq_some_iff.mp hd).1⟩

omit [Prost] in
theorem Image.Orderly.retain (h : a.Orderly) (keys : List Bytes) : (a.retain keys).Orderly := by
  refine h.onJobs fun id js js' hjs heq => ?_
  unfold JobState.retainedBy at heq
  split at heq
  · split_ifs at heq
    exact Option.some.inj heq ▸ hjs
  · exact Option.some.inj heq ▸ hjs

theorem Swept.orderly (hswept : Swept now budget cutoff kept a n a') (ha : a.Orderly)
    (hnow : 0 ≤ now.toInt) : a'.Orderly := by
  obtain ⟨due, expired, stale, old, -, rfl, -⟩ := hswept
  exact (((ha.lapse.promote).expire hnow).forget stale).retain old

/-! ### The cycle -/

omit [Prost] in
/-- A cycle in which no read and no commit fails. -/
structure CycleEnv.Healthy (env : CycleEnv) : Prop where
  reads : env.faults = fun _ => none
  commits : env.commitFails = false

variable {server : Server} {env : CycleEnv} {params : SweepParams}

/-- A healthy sweep cycle sweeps. -/
theorem Server.Shows.runSweepCycle_swept (h : server.Shows a) (henv : env.Healthy)
    (params : SweepParams) : ∃ n a', (runSweepCycle env params server).server.Shows a' ∧
      Swept env.now params.sweepLimit.toNat (retentionCutoff params.deadLetterRetentionMs env.now)
        (0 < params.deadLetterRetentionMs) a n a' := by
  have hreal : Realizes (applyOp (sweepOp params env.now)) a _ :=
    Realizes.wrap OpOutcome.sweep (applySweep_realizes a env.now params.sweepLimit.toNat
      (retentionCutoff params.deadLetterRetentionMs env.now) (0 < params.deadLetterRetentionMs))
  rcases runSweepCycle_cases env params h with
    ⟨e, tx, herr, -⟩ | ⟨r, tx, evs, a', -, hturn, -, ⟨hfails, -⟩ | hresult⟩
  · obtain ⟨r, rows, idx, c, evs, a', hx, -⟩ :=
      realizes_iff.mp hreal server.rows server.indexes (Cycle.new env.metricsEnabled) h
    rw [beginCycle, henv.reads] at herr
    cases herr.symm.trans hx
  · cases henv.commits.symm.trans hfails
  · rw [hresult]
    obtain ⟨evs, a', -, hshows', n, -, -, hswept⟩ := h.callStep_of_realizes hreal hturn.call
    exact ⟨n, a', hshows', hswept⟩

/-- Sweep cycles in a row, at one time. -/
def Server.sweeps (env : CycleEnv) (params : SweepParams) (k : ℕ) (server : Server) : Server :=
  (fun server => (runSweepCycle env params server).server)^[k] server

/-- A few sweeps clear all that is due. -/
theorem Server.Shows.exists_sweeps (h : server.Shows a) (ha : a.Orderly) (henv : env.Healthy)
    (hlimit : 1 ≤ params.sweepLimit) (hnow : 0 ≤ env.now.toInt)
    (hlt : env.now.toInt < 2 ^ 63 - 1) :
    ∃ k, ¬ SweepDue (server.sweeps env params k).indexes params.deadLetterRetentionMs env.now := by
  have hbudget : 1 ≤ params.sweepLimit.toNat := UInt64.le_iff_toNat_le.mp hlimit
  -- every sweep that is due lowers the number of what is due
  induction hcount : (server.rows.dueSet params.deadLetterRetentionMs env.now).ncard using
    Nat.strong_induction_on generalizing server a with
  | _ count ih =>
    by_cases hdue : SweepDue server.indexes params.deadLetterRetentionMs env.now
    swap
    · exact ⟨0, hdue⟩
    obtain ⟨n, a', hshows', hswept⟩ := h.runSweepCycle_swept henv params
    have hkeys := hswept.keys h hshows'
    obtain ⟨ks, hks, key, hkey, hgone⟩ := (hkeys.loses_iff h hbudget hnow hlt).mp hdue
    have hless : ((runSweepCycle env params server).server.rows.dueSet
        params.deadLetterRetentionMs env.now).ncard < count := by
      rw [← hcount]
      refine Set.ncard_lt_ncard ⟨fun p hp => ?_, fun hsub => ?_⟩ (Rows.finite_dueSet _ _ _)
      · exact hkeys.isDue_of_isDue h hshows' hp
      · have hlost : (ks, key) ∈ server.rows.dueSet params.deadLetterRetentionMs env.now :=
          hkeys.isDue_of_lost h ha hnow hlt hks hkey hgone
        exact hgone (Rows.IsDue.mem (hsub hlost)).2
    obtain ⟨k, hk⟩ := ih _ hless hshows' (hswept.orderly ha hnow) rfl
    exact ⟨k + 1, by rwa [Server.sweeps, Function.iterate_succ_apply]⟩

omit [Prost] in
/-- While the committer waits for commands, no sweep becomes due. -/
theorem not_sweepDue_of_wait {retentionMs : UInt64} {maxSweepIntervalMs : ℕ} {t : Int64}
    (ht : t.toInt < now.toInt + waitMs idx retentionMs now maxSweepIntervalMs) (hle : now ≤ t) :
    ¬ SweepDue idx retentionMs t := by
  rintro ⟨deadline, hdeadline, hdue⟩
  have hdue := Int64.le_iff_toInt_le.mp hdue
  have hle := Int64.le_iff_toInt_le.mp hle
  rw [waitMs, hdeadline] at ht
  simp only at ht
  omega

omit [Prost] in
/-- With nothing due the committer does wait, and one that is cut short ends in a sweep. -/
theorem waitMs_of_not_sweepDue {retentionMs : UInt64} {maxSweepIntervalMs : ℕ}
    (hdue : ¬ SweepDue idx retentionMs now) (hmax : 1 ≤ maxSweepIntervalMs) :
    1 ≤ waitMs idx retentionMs now maxSweepIntervalMs ∧
      (waitMs idx retentionMs now maxSweepIntervalMs < maxSweepIntervalMs →
        ∀ t : Int64, t.toInt = now.toInt + waitMs idx retentionMs now maxSweepIntervalMs →
          SweepDue idx retentionMs t) := by
  cases hdeadline : nextDeadline idx retentionMs with
  | none =>
    simp only [waitMs, hdeadline, lt_self_iff_false, false_implies, and_true]
    exact hmax
  | some deadline =>
    have hlater : now.toInt < deadline.toInt := by
      by_contra hle
      exact hdue ⟨deadline, hdeadline, Int64.le_iff_toInt_le.mpr (Int.not_lt.mp hle)⟩
    simp only [waitMs, hdeadline]
    refine ⟨by omega, fun hshort t ht => ⟨deadline, hdeadline, ?_⟩⟩
    rw [Int64.le_iff_toInt_le]
    omega

/-- The committer sweeps exactly when there is something to sweep, waits until there is or as long
as it may, and is done after a few sweeps. -/
theorem Run.wake_agrees {calls : List Call} (h : Run calls server)
    (hadm : ∀ call ∈ calls, call.Admitted) (henv : env.Healthy) (hnow : 0 ≤ env.now.toInt)
    (hlt : env.now.toInt < 2 ^ 63 - 1) (hlimit : 1 ≤ params.sweepLimit) :
    (SweepDue server.indexes params.deadLetterRetentionMs env.now ↔
      server.rows.Loses (runSweepCycle env params server).server.rows) ∧
    (SweepDue server.indexes params.deadLetterRetentionMs env.now ↔
      ∃ ks key, server.rows.IsDue params.deadLetterRetentionMs env.now ks key) ∧
    (∀ (maxSweepIntervalMs : ℕ) (t : Int64), env.now ≤ t → t.toInt < 2 ^ 63 - 1 →
      t.toInt < env.now.toInt +
        waitMs server.indexes params.deadLetterRetentionMs env.now maxSweepIntervalMs →
      ¬ ∃ ks key, server.rows.IsDue params.deadLetterRetentionMs t ks key) ∧
    (¬ SweepDue server.indexes params.deadLetterRetentionMs env.now →
      ∀ maxSweepIntervalMs, 1 ≤ maxSweepIntervalMs →
        let wait := waitMs server.indexes params.deadLetterRetentionMs env.now maxSweepIntervalMs
        1 ≤ wait ∧ (wait < maxSweepIntervalMs → ∀ t : Int64, t.toInt = env.now.toInt + wait →
          SweepDue server.indexes params.deadLetterRetentionMs t)) ∧
    ∃ k, ¬ SweepDue (server.sweeps env params k).indexes params.deadLetterRetentionMs env.now := by
  obtain ⟨a, hshows, horderly⟩ := h.exists_orderly hadm
  obtain ⟨n, a', hshows', hswept⟩ := hshows.runSweepCycle_swept henv params
  refine ⟨?_, hshows.sweepDue_iff_isDue horderly hnow hlt,
    fun maxSweepIntervalMs t hle ht hwait => ?_,
    fun hdue maxSweepIntervalMs hmax => waitMs_of_not_sweepDue hdue hmax,
    hshows.exists_sweeps horderly henv hlimit hnow hlt⟩
  · exact (hswept.keys hshows hshows').loses_iff hshows (UInt64.le_iff_toNat_le.mp hlimit) hnow hlt
  · have hpos : 0 ≤ t.toInt := hnow.trans (Int64.le_iff_toInt_le.mp hle)
    rw [← hshows.sweepDue_iff_isDue horderly hpos ht]
    exact not_sweepDue_of_wait hwait hle

end Sweep

/-- A sweep cycle at the end of the leases of `overdueJobs`. -/
def lateSweep : CycleEnv where
  now := 40000
  metricsEnabled := false
  faults := fun _ => none
  commitFails := false

open WireFormat Server in
/-- Two retries and a lease are due; with a budget of one it takes a few sweeps to clear them. -/
theorem wake_agrees_overdueJobs :
    (performAll overdueJobs {}).2.rows.Loses (runSweepCycle lateSweep
        { sweepLimit := 1, deadLetterRetentionMs := 1000 } (performAll overdueJobs {}).2).server.rows ∧
      ∃ k, ¬ SweepDue ((performAll overdueJobs {}).2.sweeps lateSweep
        { sweepLimit := 1, deadLetterRetentionMs := 1000 } k).indexes 1000 40000 := by
  have hrun := Run.of_performAll (show ∀ op ∈ overdueJobs, op.WellFormed by decide) (by decide)
  obtain ⟨hloses, -, -, -, hsweeps⟩ := Run.wake_agrees hrun (by decide +kernel)
    (show lateSweep.Healthy from ⟨rfl, rfl⟩) (by decide) (by decide)
    (show 1 ≤ (SweepParams.mk 1 1000).sweepLimit by decide)
  refine ⟨hloses.mp ⟨8000, by decide +kernel, by decide⟩, hsweeps⟩

end Sepp
