import Sepp.Spec.Event

/-!
# The counters of a cycle

The metrics of a cycle count, by queue, what its operations did. Each recorder adds one to the
counter of one queue, and the events say which counters they are noted in: an event is noted once
in each, and a lease that is nacked into the dead letters in two.

## Main definitions

* `Counter`, `CycleMetrics.count` — the counters by queue.
* `Event.notes` — the counters that an event is noted in.
* `Notes` — a cycle has the counts of another and some notes more.
* `Reading`, `CycleMetrics.read` — all numbers that a cycle reports.
* `CycleMetrics.Additive` — a recorder that adds the same to any metrics.
-/

open Std

namespace Sepp

/-- The counters that a cycle keeps by queue. -/
inductive Counter where
  | enqueued
  | reserved
  | acked
  | nacked
  | deadLettered
  | deduplicated
  | promotion
  | redelivery
  | dedupExpiration
deriving DecidableEq, Repr

/-- The count of a queue; a dead letter counts whatever its cause. -/
def CycleMetrics.count (m : CycleMetrics) (queue : String) : Counter → ℕ
  | .enqueued => m.enqueuedByQueue[queue]?.getD 0
  | .reserved => m.reservedByQueue[queue]?.getD 0
  | .acked => m.ackedByQueue[queue]?.getD 0
  | .nacked => m.nackedByQueue[queue]?.getD 0
  | .deadLettered => m.deadLetteredByCauseQueue.sumOf fun _ counts => counts[queue]?.getD 0
  | .deduplicated => m.deduplicatedByQueue[queue]?.getD 0
  | .promotion => m.sweepPromotionsByQueue[queue]?.getD 0
  | .redelivery => m.sweepLeaseRedeliveriesByQueue[queue]?.getD 0
  | .dedupExpiration => m.sweepDedupExpirationsByQueue[queue]?.getD 0

@[simp]
theorem CycleMetrics.count_new (queue : String) (k : Counter) :
    ({} : CycleMetrics).count queue k = 0 := by
  cases k <;> simp [CycleMetrics.count]

/-- The counters that the event is noted in, each with its queue. -/
def Event.notes : Event → List (Counter × String)
  | insert job _ => [(.enqueued, job.req.queue)]
  | hit job .. => [(.deduplicated, job.req.queue)]
  | lease job _ => [(.reserved, job.queue)]
  | ack _ queue _ => [(.acked, queue)]
  | retry _ queue .. => [(.nacked, queue)]
  | promote _ queue _ => [(.promotion, queue)]
  | redeliver _ queue _ => [(.redelivery, queue)]
  | bury _ queue _ _ cause .. =>
    match cause with
    | .rejected | .attemptsExhausted => [(.nacked, queue), (.deadLettered, queue)]
    | .unspecified | .leaseExpired | .admin => [(.deadLettered, queue)]
  | forget name _ => [(.dedupExpiration, name.1)]
  | full .. | closed .. | extend .. | requeue .. | discard .. | purge .. | purgeDedup .. | close ..
  | reopen .. | lapse .. | append .. => []

/-- The cycle `c'` has the counts of `c` and one more for every note; without metrics there are no
counts. -/
def Notes (notes : List (Counter × String)) (c c' : Cycle) : Prop :=
  ∀ queue k, c'.metrics.map (·.count queue k) =
    c.metrics.map fun m => m.count queue k + notes.count (k, queue)

namespace Notes

variable {notes notes' : List (Counter × String)} {c c' c'' : Cycle}

/-- Nothing is noted when the metrics stay as they are. -/
theorem of_eq (h : c'.metrics = c.metrics) : Notes [] c c' := by
  intro queue k
  rw [h]
  rfl

theorem append (h : Notes notes c c') (h' : Notes notes' c' c'') :
    Notes (notes ++ notes') c c'' := by
  intro queue k
  calc c''.metrics.map (·.count queue k)
      = (c'.metrics.map (·.count queue k)).map (· + notes'.count (k, queue)) := by
        rw [h' queue k, Option.map_map]
        rfl
    _ = c.metrics.map fun m => m.count queue k + (notes ++ notes').count (k, queue) := by
        rw [h queue k, Option.map_map, List.count_append]
        simp only [Function.comp_def, Nat.add_assoc]

/-- A recorder that adds the notes to any metrics. -/
theorem record {f : CycleMetrics → CycleMetrics}
    (hf : ∀ m queue k, (f m).count queue k = m.count queue k + notes.count (k, queue))
    (c : Cycle) : Notes notes c (c.record f) := by
  intro queue k
  rw [Cycle.record, Option.map_map]
  exact congrArg (c.metrics.map ·) (funext fun m => hf m queue k)

/-! ### The recorders -/

variable (c : Cycle) (queue : String)

theorem enqueued : Notes [(.enqueued, queue)] c (c.enqueued queue) := by
  refine record (fun m q k => ?_) c
  cases k <;> simp [CycleMetrics.count, getD_bumpQueue, List.count_singleton]

theorem reserved : Notes [(.reserved, queue)] c (c.reserved queue) := by
  refine record (fun m q k => ?_) c
  cases k <;> simp [CycleMetrics.count, getD_bumpQueue, List.count_singleton]

theorem acked : Notes [(.acked, queue)] c (c.acked queue) := by
  refine record (fun m q k => ?_) c
  cases k <;> simp [CycleMetrics.count, getD_bumpQueue, List.count_singleton]

theorem nacked : Notes [(.nacked, queue)] c (c.nacked queue) := by
  refine record (fun m q k => ?_) c
  cases k <;> simp [CycleMetrics.count, getD_bumpQueue, List.count_singleton]

theorem deduplicated : Notes [(.deduplicated, queue)] c (c.deduplicated queue) := by
  refine record (fun m q k => ?_) c
  cases k <;> simp [CycleMetrics.count, getD_bumpQueue, List.count_singleton]

theorem promotion : Notes [(.promotion, queue)] c (c.sweepPromotion queue) := by
  refine record (fun m q k => ?_) c
  cases k <;> simp [CycleMetrics.count, getD_bumpQueue, List.count_singleton]

theorem redelivery : Notes [(.redelivery, queue)] c (c.sweepLeaseRedelivery queue) := by
  refine record (fun m q k => ?_) c
  cases k <;> simp [CycleMetrics.count, getD_bumpQueue, List.count_singleton]

theorem dedupExpiration : Notes [(.dedupExpiration, queue)] c (c.sweepDedupExpiration queue) := by
  refine record (fun m q k => ?_) c
  cases k <;> simp [CycleMetrics.count, getD_bumpQueue, List.count_singleton]

theorem deadLettered (cause : String) :
    Notes [(.deadLettered, queue)] c (c.deadLettered queue cause) := by
  refine record (fun m q k => ?_) c
  cases k with
  | deadLettered =>
    have hsum := m.deadLetteredByCauseQueue.sumOf_insert (fun _ counts => counts[q]?.getD 0) cause
      (bumpQueue (m.deadLetteredByCauseQueue[cause]?.getD ∅) queue)
    rw [getD_bumpQueue] at hsum
    have hold : m.deadLetteredByCauseQueue[cause]?.elim 0 (fun counts => counts[q]?.getD 0) =
        (m.deadLetteredByCauseQueue[cause]?.getD ∅)[q]?.getD 0 := by
      cases m.deadLetteredByCauseQueue[cause]? <;> simp
    simp only [CycleMetrics.count, List.count_singleton, beq_iff_eq, Prod.mk.injEq, true_and]
    omega
  | _ => simp [CycleMetrics.count]

/-- What has no counter of a queue is not noted. -/
theorem queuePurged : Notes [] c (c.queuePurged queue) :=
  record (fun m q k => by cases k <;> rfl) c

theorem deadLetterExpired (n : ℕ) : Notes [] c (c.deadLetterExpired n) :=
  record (fun m q k => by cases k <;> rfl) c

theorem deadLetterDrained (n : ℕ) : Notes [] c (c.deadLetterDrained n) :=
  record (fun m q k => by cases k <;> rfl) c

end Notes

/-! ### What a cycle reports -/

/-- A number that the metrics of a cycle report: a counter of a queue, the dead letters of a queue
by their cause, and the dead letters that were discarded by age or drained. -/
inductive Reading where
  | byQueue (k : Counter) (queue : String)
  | byCause (cause queue : String)
  | deadLettersExpired
  | deadLettersDrained
deriving DecidableEq, Repr

namespace CycleMetrics

/-- What the metrics say. -/
def read (m : CycleMetrics) : Reading → ℕ
  | .byQueue k queue => m.count queue k
  | .byCause cause queue => (m.deadLetteredByCauseQueue[cause]?.getD ∅)[queue]?.getD 0
  | .deadLettersExpired => m.deadLettersExpired
  | .deadLettersDrained => m.deadLettersDrained

@[simp]
theorem read_new (reading : Reading) : ({} : CycleMetrics).read reading = 0 := by
  cases reading <;> simp [read]

/-- The recorder adds to any metrics what it adds to empty ones. -/
structure Additive (f : CycleMetrics → CycleMetrics) : Prop where
  read : ∀ m reading, (f m).read reading = m.read reading + (f {}).read reading
  purgedQueues : ∀ m, (f m).purgedQueues = m.purgedQueues ++ (f {}).purgedQueues

namespace Additive

variable {f g : CycleMetrics → CycleMetrics}

theorem id : Additive id where
  read m reading := by simp
  purgedQueues m := by simp

theorem comp (hg : Additive g) (hf : Additive f) : Additive (g ∘ f) where
  read m reading := by
    rw [Function.comp_apply, Function.comp_apply, hg.read, hg.read (f {}), hf.read, Nat.add_assoc]
  purgedQueues m := by
    rw [Function.comp_apply, Function.comp_apply, hg.purgedQueues, hg.purgedQueues (f {}),
      hf.purgedQueues, List.append_assoc]

/-- A recorder that notes the same in any metrics, and does the same to the rest. -/
theorem of_notes {notes : List (Counter × String)}
    (hnotes : ∀ c : Cycle, Notes notes c (c.record f))
    (hrest : ∀ m, (∀ cause queue, (f m).read (.byCause cause queue) =
        m.read (.byCause cause queue) + (f {}).read (.byCause cause queue)) ∧
      (f m).deadLettersExpired = m.deadLettersExpired + (f {}).deadLettersExpired ∧
      (f m).deadLettersDrained = m.deadLettersDrained + (f {}).deadLettersDrained ∧
      (f m).purgedQueues = m.purgedQueues ++ (f {}).purgedQueues) : Additive f where
  read m reading := by
    cases reading with
    | byQueue k queue =>
      have hcount : ∀ m : CycleMetrics,
          (f m).count queue k = m.count queue k + notes.count (k, queue) := fun m =>
        Option.some.inj (hnotes { metrics := some m } queue k)
      simp only [CycleMetrics.read]
      rw [hcount, hcount {}, count_new, Nat.zero_add]
    | byCause cause queue => exact (hrest m).1 cause queue
    | deadLettersExpired => exact (hrest m).2.1
    | deadLettersDrained => exact (hrest m).2.2.1
  purgedQueues m := (hrest m).2.2.2

end Additive

end CycleMetrics

end Sepp
