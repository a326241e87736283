import Sepp.Spec.Enqueue

/-!
# The capacity check of an atomic batch

An atomic batch is checked as a whole: for every queue, the jobs that the batch has for it are
added to the depth of the queue, and the sum is compared with the cap of the first of them. Hits of
the dedup index count as jobs here. What the check finds is what one reads off the batch when the
jobs of a queue carry the same cap.

## Main results

* `getElem?_wantedDepths`, `getElem?_fullQueues`.
* `le_cap_of_fullQueues_isEmpty` — what a batch that has room leaves to its queues.
-/

open Std

namespace Sepp

/-- The jobs of the batch that go to the queue. -/
def batchCount (jobs : List PreparedJob) (queue : String) : ℕ :=
  jobs.countP fun job => job.req.queue = queue

/-- The cap of the first job of the batch that goes to the queue. -/
def firstCap (jobs : List PreparedJob) (queue : String) : Option (Option UInt64) :=
  (jobs.find? fun job => job.req.queue = queue).map fun job => job.limits.maxQueueDepth

/-- The jobs of one queue carry the same cap. -/
def SameCaps (jobs : List PreparedJob) : Prop :=
  ∀ job ∈ jobs, ∀ job' ∈ jobs, job'.req.queue = job.req.queue →
    job'.limits.maxQueueDepth = job.limits.maxQueueDepth

instance (jobs : List PreparedJob) : Decidable (SameCaps jobs) :=
  inferInstanceAs (Decidable (∀ job ∈ jobs, ∀ job' ∈ jobs, job'.req.queue = job.req.queue →
    job'.limits.maxQueueDepth = job.limits.maxQueueDepth))

section Wanted

variable {jobs : List PreparedJob} {job : PreparedJob} {queue : String} {idx : Indexes}

theorem batchCount_cons (job : PreparedJob) (jobs : List PreparedJob) (queue : String) :
    batchCount (job :: jobs) queue =
      batchCount jobs queue + if job.req.queue = queue then 1 else 0 := by
  rw [batchCount, batchCount, List.countP_cons]
  simp only [decide_eq_true_eq]

theorem firstCap_cons (job : PreparedJob) (jobs : List PreparedJob) (queue : String) :
    firstCap (job :: jobs) queue =
      if job.req.queue = queue then some job.limits.maxQueueDepth else firstCap jobs queue := by
  rw [firstCap, firstCap, List.find?_cons]
  by_cases hqueue : job.req.queue = queue <;> simp [hqueue]

/-- A job that carries the cap of its queue carries the first cap of its queue. -/
theorem firstCap_eq (hjob : job ∈ jobs) (hcaps : ∀ job' ∈ jobs, job'.req.queue = job.req.queue →
      job'.limits.maxQueueDepth = job.limits.maxQueueDepth) :
    firstCap jobs job.req.queue = some job.limits.maxQueueDepth := by
  rw [firstCap]
  cases hfind : jobs.find? fun job' => job'.req.queue = job.req.queue with
  | none => exact absurd (List.find?_eq_none.mp hfind job hjob) (by simp)
  | some first =>
    have hqueue := List.find?_some hfind
    rw [Option.map_some, hcaps first (List.mem_of_find?_eq_some hfind) (of_decide_eq_true hqueue)]

/-- The loop that counts the jobs, from any counts. -/
theorem getElem?_foldl_wanted (wanted : ExtTreeMap String (ℕ × Option UInt64) compare)
    (jobs : List PreparedJob) (queue : String) :
    (jobs.foldl (fun wanted job =>
      let entry := wanted[job.req.queue]?.getD (0, job.limits.maxQueueDepth)
      wanted.insert job.req.queue (entry.1 + 1, entry.2)) wanted)[queue]? =
    (wanted[queue]?.or ((firstCap jobs queue).map (Prod.mk 0))).map
      fun entry => (entry.1 + batchCount jobs queue, entry.2) := by
  induction jobs generalizing wanted with
  | nil => simp [batchCount, firstCap]
  | cons job jobs ih =>
    rw [List.foldl_cons, ih, batchCount_cons, ExtTreeMap.getElem?_insert, firstCap_cons]
    by_cases hqueue : job.req.queue = queue
    · subst hqueue
      cases wanted[job.req.queue]? with
      | none => simp [Nat.add_comm]
      | some entry => simp [Nat.add_assoc, Nat.add_comm]
    · simp [hqueue]

/-- The jobs that the batch has for the queue, with the cap of the first of them. -/
theorem getElem?_wantedDepths (jobs : List PreparedJob) (queue : String) :
    (wantedDepths jobs)[queue]? = (firstCap jobs queue).map (Prod.mk (batchCount jobs queue)) := by
  rw [wantedDepths, getElem?_foldl_wanted]
  cases firstCap jobs queue <;> simp

/-- The job takes part in pushing its queue past its cap. -/
theorem getElem?_fullQueues (hjob : job ∈ jobs)
    (hcaps : ∀ job' ∈ jobs, job'.req.queue = job.req.queue →
      job'.limits.maxQueueDepth = job.limits.maxQueueDepth) :
    (fullQueues idx jobs)[job.req.queue]? = job.limits.maxQueueDepth.filter
      fun cap => cap.toNat < idx.liveDepth job.req.queue + batchCount jobs job.req.queue := by
  rw [fullQueues, ExtTreeMap.getElem?_filterMap', getElem?_wantedDepths, firstCap_eq hjob hcaps]
  rfl

theorem getElem?_fullQueues_eq_none (hnone : ∀ job ∈ jobs, job.req.queue ≠ queue) :
    (fullQueues idx jobs)[queue]? = none := by
  have hcap : firstCap jobs queue = none := by
    rw [firstCap, Option.map_eq_none_iff, List.find?_eq_none]
    simpa using hnone
  rw [fullQueues, ExtTreeMap.getElem?_filterMap', getElem?_wantedDepths, hcap]
  rfl

/-- No queue is pushed past the cap of its jobs by a batch that has room. -/
theorem le_cap_of_fullQueues_isEmpty (hroom : (fullQueues idx jobs).isEmpty = true)
    (hjob : job ∈ jobs) (hcaps : ∀ job' ∈ jobs, job'.req.queue = job.req.queue →
      job'.limits.maxQueueDepth = job.limits.maxQueueDepth) {cap : UInt64}
    (hcap : job.limits.maxQueueDepth = some cap) :
    idx.liveDepth job.req.queue + batchCount jobs job.req.queue ≤ cap.toNat := by
  have hnone : (fullQueues idx jobs)[job.req.queue]? = none := by
    rw [ExtTreeMap.isEmpty_iff.mp hroom]
    rfl
  rw [getElem?_fullQueues hjob hcaps, hcap, Option.filter_eq_none_iff] at hnone
  have hle := hnone cap rfl
  simp only [decide_eq_true_eq] at hle
  omega

end Wanted

end Sepp
