import Sepp.Spec.Counters
import Sepp.Spec.Enqueue

/-!
# What enters and leaves a queue

A live job enters its queue when it is inserted and when its dead letter is requeued; it leaves
when it is acked, when it is given up and when it is purged. Everything else moves it from one
place of its queue to another. The counters of the metrics note insertions, acks and dead letters,
so with the requeues and the purges they account for the live jobs of every queue.

## Main definitions

* `Image.Finite` — finitely many jobs and dedup records.
* `Event.requeues`, `Event.purges` — the changes of a queue that no counter notes.

## Main results

* `live_of_trace` — the balance of a queue over a run of events.
-/

namespace Sepp

section Finite

variable [Prost] {a a' : Image} {e : Event}

omit [Prost] in
/-- Finitely many jobs and dedup records. -/
structure Image.Finite (a : Image) : Prop where
  jobs : { id | a.jobs id ≠ none }.Finite
  dedup : { name | a.dedup name ≠ none }.Finite

theorem Represents.finite {rows : Rows} {idx : Indexes} (h : Represents a rows idx) : a.Finite :=
  ⟨h.finite_jobs, h.finite_dedup⟩

omit [Prost] in
theorem Image.Finite.setJob (h : a.Finite) (id : String) (x : Option JobState) :
    (a.setJob id x).Finite where
  jobs := (h.jobs.insert id).subset fun id' hid' => by
    by_cases hid : id' = id
    · exact .inl hid
    · rw [Set.mem_ofPred_eq, setJob_jobs, Function.update_of_ne hid] at hid'
      exact .inr hid'
  dedup := h.dedup

omit [Prost] in
theorem Image.Finite.setDedup (h : a.Finite) (name : DedupName) (x : Option DedupState) :
    (a.setDedup name x).Finite where
  jobs := h.jobs
  dedup := (h.dedup.insert name).subset fun name' hname' => by
    by_cases hname : name' = name
    · exact .inl hname
    · rw [Set.mem_ofPred_eq, setDedup_dedup, Function.update_of_ne hname] at hname'
      exact .inr hname'

theorem Step.finite (h : Step a e a') (hfin : a.Finite) : a'.Finite := by
  cases h with
  | insert hq =>
    unfold Image.rememberJob
    split
    · exact (hfin.setJob _ _).setDedup _ _
    · exact hfin.setJob _ _
  | lease | ack | retry | extend | promote | redeliver | bury | requeue | discard | purge =>
    exact hfin.setJob _ _
  | forget | purgeDedup => exact hfin.setDedup _ _
  | hit | full | closed => exact hfin
  | close | reopen | lapse | append => exact ⟨hfin.jobs, hfin.dedup⟩

end Finite

namespace Event

/-- The event puts a dead letter of the queue back in line. -/
def requeues (queue : String) : Event → Bool
  | requeue _ owner _ _ => owner = queue
  | _ => false

/-- The event is the purge of a live job of the queue. -/
def purges (queue : String) : Event → Bool
  | purge _ owner => owner = queue
  | _ => false

end Event

section Live

variable {a : Image} {queue id : String} {js : JobState}

/-- What a job contributes to the live jobs of a queue. -/
theorem JobState.tick_liveIn (queue id : String) (js : JobState) :
    tick (JobState.LiveIn queue) id (some js) =
      if js.place.IsDead then 0 else if js.content.queue = queue then 1 else 0 := by
  split_ifs with hdead hqueue
  · exact tick_of_neg fun h => h.2 hdead
  · exact tick_of_pos ⟨hqueue, hdead⟩
  · exact tick_of_neg fun h => hqueue h.1

/-- A change of one job changes the live jobs by what the job contributes. -/
theorem Image.live_setJob (hfin : a.Finite) (id : String) (x : Option JobState) (queue : String) :
    (a.setJob id x).live queue + tick (JobState.LiveIn queue) id (a.jobs id) =
      a.live queue + tick (JobState.LiveIn queue) id x :=
  census_update hfin.jobs id x

/-- A job that stays alive in its queue. -/
theorem Image.live_moved (hfin : a.Finite) (hJ : a.jobs id = some js) (hlive : ¬ js.place.IsDead)
    {place : Place} (hplace : ¬ place.IsDead) (queue : String) :
    (a.setJob id (some { js with place })).live queue = a.live queue := by
  have hset := Image.live_setJob hfin id (some { js with place }) queue
  rw [hJ, JobState.tick_liveIn, JobState.tick_liveIn, if_neg hlive, if_neg hplace] at hset
  exact Nat.add_right_cancel hset

/-- A live job that goes, or dies. -/
theorem Image.live_left (hfin : a.Finite) (hJ : a.jobs id = some js) (hlive : ¬ js.place.IsDead)
    {x : Option JobState} (hx : ∀ js', x = some js' → js'.place.IsDead) (queue : String) :
    (a.setJob id x).live queue + (if js.content.queue = queue then 1 else 0) = a.live queue := by
  have hset := Image.live_setJob hfin id x queue
  have hgone : tick (JobState.LiveIn queue) id x = 0 := by
    cases x with
    | none => exact tick_none
    | some js' => rw [JobState.tick_liveIn, if_pos (hx js' rfl)]
  rw [hJ, JobState.tick_liveIn, if_neg hlive] at hset
  omega

end Live

/-- A job that is given up was alive. -/
theorem JobState.GivenUp.not_isDead {js : JobState} {attempt : UInt32} {now : Int64}
    {cause : DeadLetterCause} (h : js.GivenUp attempt now cause) : ¬ js.place.IsDead := by
  cases cause with
  | unspecified => exact h.elim
  | admin => rcases h with hp | ⟨deadline, hp⟩ <;> simp [hp, Place.IsDead]
  | rejected =>
    obtain ⟨expires, hp⟩ := h
    simp [hp, Place.IsDead]
  | attemptsExhausted =>
    obtain ⟨-, expires, hp⟩ := h
    simp [hp, Place.IsDead]
  | leaseExpired =>
    obtain ⟨-, expires, hp, -⟩ := h
    simp [hp, Place.IsDead]

section Balance

variable [Prost] {a a' : Image} {e : Event} {evs : List Event}

/-- The balance of a queue over one event. -/
theorem Step.live_eq (h : Step a e a') (hfin : a.Finite) (queue : String) :
    a'.live queue + e.notes.count (.acked, queue) + e.notes.count (.deadLettered, queue) +
        (if e.purges queue then 1 else 0) =
      a.live queue + e.notes.count (.enqueued, queue) + (if e.requeues queue then 1 else 0) := by
  cases h with
  | @insert job now hq hnew =>
    have hset : (a.insertJob job hq now).live queue = _ :=
      Image.live_insertJob hfin.jobs hnew queue
    rw [Image.insertJob] at hset
    simpa [Event.notes, Event.purges, Event.requeues, List.count_singleton] using hset
  | lease hJ hp | extend hJ hp | promote hJ hp | redeliver hJ hp =>
    rw [Image.live_moved hfin hJ (by simp [hp, Place.IsDead]) (by simp [Place.IsDead])]
    simp [Event.notes, Event.purges, Event.requeues]
  | retry hJ hp _ delayed =>
    rw [Image.live_moved hfin hJ (by simp [hp, Place.IsDead])
      (by cases delayed <;> simp [Place.retried, Place.IsDead])]
    simp [Event.notes, Event.purges, Event.requeues]
  | ack hJ hp =>
    have hleft := Image.live_left hfin hJ (by simp [hp, Place.IsDead]) (x := none) (by simp) queue
    simpa [Event.notes, Event.purges, Event.requeues, List.count_singleton] using hleft
  | @purge id js attempt hJ hp =>
    have hlive : ¬ js.place.IsDead := by
      rcases hp with hp | ⟨deadline, hp⟩ <;> simp [hp, Place.IsDead]
    have hleft := Image.live_left hfin hJ hlive (x := none) (by simp) queue
    simpa [Event.notes, Event.purges, Event.requeues] using hleft
  | @bury id js attempt failedAt hJ cause hgiven reason kept =>
    have hleft := Image.live_left hfin hJ hgiven.not_isDead
      (x := if kept then some { js with place := .dead attempt failedAt cause reason } else none)
      (by cases kept <;> simp [Place.IsDead]) queue
    cases cause <;>
      simpa [Event.notes, Event.purges, Event.requeues, List.count_cons] using hleft
  | @requeue id js _ _ _ _ hJ hp now =>
    have hset := Image.live_setJob hfin id (some (js.requeued now)) queue
    have halive : ¬ (js.requeued now).place.IsDead := fun h => h
    rw [hJ, JobState.tick_liveIn, JobState.tick_liveIn, if_pos (by simp [hp, Place.IsDead]),
      if_neg halive, show (js.requeued now).content = js.content from rfl] at hset
    simpa [Event.notes, Event.purges, Event.requeues] using hset
  | @discard id _ _ _ _ _ hJ hp =>
    have hset := Image.live_setJob hfin id none queue
    rw [hJ, JobState.tick_liveIn, if_pos (by simp [hp, Place.IsDead]), tick_none] at hset
    simpa [Event.notes, Event.purges, Event.requeues] using hset
  | hit => simp [Event.notes, Event.purges, Event.requeues]
  | full | closed | forget | purgeDedup | close | reopen | lapse | append =>
    simp only [Event.notes, Event.purges, Event.requeues, List.count_nil]
    rfl

/-- The balance of a queue over a run of events. -/
theorem live_of_trace (h : Trace Step a evs a') (hfin : a.Finite) (queue : String) :
    a'.live queue + (evs.flatMap Event.notes).count (.acked, queue) +
        (evs.flatMap Event.notes).count (.deadLettered, queue) + evs.countP (Event.purges queue) =
      a.live queue + (evs.flatMap Event.notes).count (.enqueued, queue) +
        evs.countP (Event.requeues queue) := by
  induction h with
  | nil => rfl
  | cons hstep _ ih =>
    have hfirst := hstep.live_eq hfin queue
    have hrest := ih (hstep.finite hfin)
    simp only [List.flatMap_cons, List.count_append, List.countP_cons]
    omega

end Balance

end Sepp
