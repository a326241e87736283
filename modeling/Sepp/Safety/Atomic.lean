import Sepp.Run.Calls
import Sepp.Spec.Batch
import Sepp.Wire.Codec

/-!
# An atomic batch is all or nothing

An atomic batch is checked before anything is written. When the check turns it away, nothing has
changed; when it goes through, every job passes the checks that a best-effort batch makes at its
turn, so both ways of enqueueing do the same.

The two loops are compared step by step. A batch that has room for all its jobs at its start has
room for each of them at its turn, since a turn adds at most its own job to the depth of its queue.

## Main definitions

* `Adds` — how much a computation may add to the depth of a queue.
* `rejectionsOf` — the jobs that the check of an atomic batch names.

## Main results

* `Run.enqueueAtomic_all_or_nothing`.
-/

open Std

namespace Sepp

/-! ### What a computation adds to the depth of a queue -/

/-- The indexes gained at most `n` live jobs of the queue, none of another, and no tombstone. -/
structure Indexes.Gained (idx idx' : Indexes) (queue : String) (n : ℕ) : Prop where
  closing : idx'.closing = idx.closing
  depth : ∀ q, idx'.liveDepth q ≤ idx.liveDepth q + if queue = q then n else 0

theorem Indexes.Gained.trans {idx idx' idx'' : Indexes} {queue : String} {m n : ℕ}
    (h : idx.Gained idx' queue m) (h' : idx'.Gained idx'' queue n) :
    idx.Gained idx'' queue (m + n) := by
  refine ⟨h'.closing.trans h.closing, fun q => ?_⟩
  have hfirst := h.depth q
  have hsecond := h'.depth q
  split_ifs at hfirst hsecond ⊢ <;> omega

/-- Whatever it answers, the computation adds at most `n` live jobs to the queue. -/
structure Adds {α : Type} (queue : String) (n : ℕ) (x : TxM α) : Prop where
  gained : ∀ s r s', x s = .ok r s' → s.indexes.Gained s'.indexes queue n

namespace Adds

variable {α β : Type} {queue : String} {m n : ℕ}

theorem of_same_indexes {x : TxM α}
    (h : ∀ s r s', x s = .ok r s' → s'.indexes = s.indexes) : Adds queue 0 x := by
  refine ⟨fun s r s' hx => ?_⟩
  rw [h s r s' hx]
  exact ⟨rfl, fun _ => Nat.le_add_right _ _⟩

@[simp]
theorem pure (r : α) : Adds queue 0 (Pure.pure r : TxM α) :=
  of_same_indexes fun s _ s' hx => by cases hx; rfl

@[simp]
theorem txInsert (ks : KeyspaceName) (key value : Bytes) :
    Adds queue 0 (txInsert ks key value) :=
  of_same_indexes fun s _ s' hx => by cases hx; rfl

@[simp]
theorem txRemove (ks : KeyspaceName) (key : Bytes) : Adds queue 0 (txRemove ks key) :=
  of_same_indexes fun s _ s' hx => by cases hx; rfl

@[simp]
theorem onCycle (f : Cycle → Cycle) : Adds queue 0 (onCycle f) :=
  of_same_indexes fun s _ s' hx => by cases hx; rfl

@[simp]
theorem txGet (ks : KeyspaceName) (key : Bytes) : Adds queue 0 (txGet ks key) := by
  refine of_same_indexes fun s r s' hx => ?_
  unfold Sepp.txGet at hx
  split at hx
  · cases hx
  · cases hx
    rfl

theorem onIndexes {f : Indexes → Indexes} (h : ∀ idx, Indexes.Gained idx (f idx) queue n) :
    Adds queue n (onIndexes f) := by
  constructor
  rintro s _ s' ⟨⟩
  exact h s.indexes

@[simp]
theorem onDedupTimers (f : Indexes → TimerIndex) :
    Adds queue 0 (Sepp.onIndexes fun idx => { idx with dedupTimers := f idx }) :=
  onIndexes fun _ => ⟨rfl, fun _ => Nat.le_add_right _ _⟩

theorem bind {x : TxM α} {f : α → TxM β} (hx : Adds queue m x) (hf : ∀ r, Adds queue n (f r)) :
    Adds queue (m + n) (x >>= f) := by
  refine ⟨fun s r s' hrun => ?_⟩
  rw [bind_run] at hrun
  cases hx' : x s with
  | error e t =>
    rw [hx'] at hrun
    cases hrun
  | ok r₁ t =>
    rw [hx'] at hrun
    exact (hx.gained s r₁ t hx').trans ((hf r₁).gained t r s' hrun)

theorem mono {x : TxM α} (h : Adds queue m x) (hmn : m ≤ n) : Adds queue n x := by
  refine ⟨fun s r s' hx => ⟨(h.gained s r s' hx).closing, fun q => ?_⟩⟩
  have hle := (h.gained s r s' hx).depth q
  split_ifs at hle ⊢ <;> omega

theorem bind_first {x : TxM α} {f : α → TxM β} (hx : Adds queue n x)
    (hf : ∀ r, Adds queue 0 (f r)) : Adds queue n (x >>= f) :=
  hx.bind hf

theorem bind_second {x : TxM α} {f : α → TxM β} (hx : Adds queue 0 x)
    (hf : ∀ r, Adds queue n (f r)) : Adds queue n (x >>= f) := by
  have h := hx.bind hf
  rwa [Nat.zero_add] at h

end Adds

/-- A new ready key adds one job to its queue. -/
theorem Indexes.gained_ready {queue : String} {key : Bytes} (hkey : readQueue key = some queue)
    (attempt : UInt32) (idx : Indexes) :
    idx.Gained { idx with ready := idx.ready.insert key attempt } queue 1 := by
  refine ⟨rfl, fun q => ?_⟩
  cases hget : idx.ready.keys[key]? with
  | none =>
    simp only [Indexes.liveDepth, ReadyIndex.insert, hget, hkey, getD_bumpQueue]
    omega
  | some _ =>
    simp only [Indexes.liveDepth, ReadyIndex.insert, hget]
    omega

/-- A new scheduled key adds one job to its queue. -/
theorem Indexes.gained_scheduled (queue : String) (key : Bytes) (idx : Indexes) :
    idx.Gained { idx with scheduled := idx.scheduled.insert key queue } queue 1 := by
  refine ⟨rfl, fun q => ?_⟩
  cases hget : idx.scheduled.keys[key]? with
  | none =>
    simp only [Indexes.liveDepth, TimerIndex.insert, hget, getD_bumpQueue]
    omega
  | some _ =>
    simp only [Indexes.liveDepth, TimerIndex.insert, hget]
    omega

/-! ### The parts of an enqueue -/

section Parts

variable [Prost] {job : PreparedJob} {now : Int64}

omit [Prost] in
theorem adds_checkDedup (queue : String) (req : EnqueueRequest) (now : Int64) :
    Adds queue 0 (checkDedup req now) := by
  unfold checkDedup
  repeat' first | split | with_reducible refine .bind_first ?_ fun _ => ?_ | simp

omit [Prost] in
@[simp]
theorem adds_insertDedup (queue : String) (job : PreparedJob) (key : String) (now : Int64)
    (staleTimer : Option Bytes) : Adds queue 0 (insertDedup job key now staleTimer) := by
  unfold insertDedup
  repeat' first | split | with_reducible refine .bind_first ?_ fun _ => ?_ | simp

theorem adds_insertPlace (hq : FitsPrefix job.req.queue) (now : Int64) :
    Adds job.req.queue 1 (insertPlace job now) := by
  have hready (key : Bytes) (hkey : readQueue key = some job.req.queue) :
      Adds job.req.queue 1 (do
        txInsert .ready key (KeyWriter.u32 1)
        onIndexes fun idx => { idx with ready := idx.ready.insert key 1 }
        onCycle (Cycle.readied job.req.queue)) :=
    .bind_second (.txInsert ..) fun _ =>
      .bind_first (.onIndexes (Indexes.gained_ready hkey 1)) fun _ => .onCycle _
  unfold insertPlace
  split
  · split
    · exact .bind_second (.txInsert ..) fun _ => .onIndexes (Indexes.gained_scheduled _ _)
    · exact hready _ (ReadyKey.readQueue_encode hq)
  · exact hready _ (ReadyKey.readQueue_encode hq)

theorem adds_insertJob (hq : FitsPrefix job.req.queue) (now : Int64) (staleTimer : Option Bytes) :
    Adds job.req.queue 1 (insertJob job now staleTimer) := by
  unfold insertJob
  refine .bind_second (.txInsert ..) fun _ => ?_
  cases job.req.payload with
  | some payload =>
    refine .bind_second (.txInsert ..) fun _ => .bind_first (adds_insertPlace hq now) fun _ => ?_
    repeat' first | split | with_reducible refine .bind_first ?_ fun _ => ?_ | simp
  | none =>
    refine .bind_first (adds_insertPlace hq now) fun _ => ?_
    repeat' first | split | with_reducible refine .bind_first ?_ fun _ => ?_ | simp

theorem adds_enqueueAdmitted (hq : FitsPrefix job.req.queue) (now : Int64) :
    Adds job.req.queue 1 (enqueueAdmitted now job) := by
  refine .bind_second (adds_checkDedup ..) fun check => ?_
  cases check with
  | hit resp => exact (Adds.pure resp).mono (Nat.zero_le 1)
  | miss staleTimer => exact adds_insertJob hq now staleTimer

/-! ### Both loops -/

/-- At an open queue with room both ways of enqueueing do the same. -/
theorem enqueueOne_eq {s : TxState} (hopen : s.indexes.isClosing job.req.queue now = false)
    (hroom : ∀ cap, job.limits.maxQueueDepth = some cap →
      s.indexes.liveDepth job.req.queue < cap.toNat) :
    enqueueOne now job s = (Except.ok <$> enqueueAdmitted now job : TxM EnqueueResult) s := by
  rw [enqueueOne, bind_run_ok (getIndexes_run s), hopen, if_neg Bool.false_ne_true,
    map_eq_pure_bind, enqueueAdmitted, bind_assoc, bind_run, bind_run]
  cases hcheck : checkDedup job.req now s with
  | error e t => rfl
  | ok check t =>
    cases check with
    | hit resp => rfl
    | miss staleTimer =>
      have hdepth := ((adds_checkDedup job.req.queue job.req now).gained s _ t hcheck).depth
        job.req.queue
      cases hcap : job.limits.maxQueueDepth with
      | none => rfl
      | some cap =>
        have hlt := hroom cap hcap
        rw [if_pos rfl] at hdepth
        simp only
        rw [bind_run_ok (getIndexes_run t), if_neg (by omega)]

/-- A batch that has room for all its jobs at its start is enqueued in the same way by both
loops. -/
theorem mapM_enqueueOne_eq (now : Int64) (jobs : List PreparedJob) (s : TxState)
    (hfits : ∀ job ∈ jobs, FitsPrefix job.req.queue)
    (hopen : ∀ job ∈ jobs, s.indexes.isClosing job.req.queue now = false)
    (hroom : ∀ job ∈ jobs, ∀ cap, job.limits.maxQueueDepth = some cap →
      s.indexes.liveDepth job.req.queue + batchCount jobs job.req.queue ≤ cap.toNat) :
    jobs.mapM (enqueueOne now) s =
      (List.map Except.ok <$> jobs.mapM (enqueueAdmitted now) : TxM (List EnqueueResult)) s := by
  induction jobs generalizing s with
  | nil => rfl
  | cons job jobs ih =>
    have hfirst : enqueueOne now job s =
        (Except.ok <$> enqueueAdmitted now job : TxM EnqueueResult) s := by
      refine enqueueOne_eq (hopen job List.mem_cons_self) fun cap hcap => ?_
      have hle := hroom job List.mem_cons_self cap hcap
      rw [batchCount_cons, if_pos rfl] at hle
      omega
    rw [List.mapM_cons, List.mapM_cons, bind_run, hfirst, map_eq_pure_bind, map_eq_pure_bind,
      bind_run, bind_assoc, bind_run]
    cases hrun : enqueueAdmitted now job s with
    | error e t => rfl
    | ok resp t =>
      have hgained :=
        (adds_enqueueAdmitted (hfits job List.mem_cons_self) now).gained s resp t hrun
      have hrest := ih t (fun job' hjob' => hfits job' (List.mem_cons_of_mem _ hjob'))
        (fun job' hjob' => ?_) (fun job' hjob' cap hcap => ?_)
      · simp only [pure_run]
        rw [bind_run, hrest, map_eq_pure_bind, bind_run, bind_assoc, bind_run]
        cases jobs.mapM (enqueueAdmitted now) t <;> rfl
      · rw [Indexes.isClosing, hgained.closing]
        exact hopen job' (List.mem_cons_of_mem _ hjob')
      · have hle := hroom job' (List.mem_cons_of_mem _ hjob') cap hcap
        have hdepth := hgained.depth job'.req.queue
        rw [batchCount_cons] at hle
        split_ifs at hle hdepth <;> omega

end Parts

/-! ### The check -/

/-- The jobs of which something is said, in the order of the batch. -/
def listed (jobs : List PreparedJob) (said : PreparedJob → Option JobRejection) :
    List (UInt32 × JobRejection) :=
  jobs.zipIdx.filterMap fun (job, index) => (said job).map (Prod.mk (UInt32.ofNat index))

/-- The jobs that the check of an atomic batch names: those of closing queues if there are any,
otherwise those of the queues that the batch would push past their cap. -/
def rejectionsOf (idx : Indexes) (jobs : List PreparedJob) (now : Int64) :
    List (UInt32 × JobRejection) :=
  if ∃ job ∈ jobs, idx.isClosing job.req.queue now = true then
    listed jobs fun job =>
      if idx.isClosing job.req.queue now then some (.queueClosing job.req.queue) else none
  else
    listed jobs fun job =>
      (job.limits.maxQueueDepth.filter fun cap =>
        cap.toNat < idx.liveDepth job.req.queue + batchCount jobs job.req.queue).map
          (.queueFull job.req.queue)

section Check

variable {idx : Indexes} {jobs : List PreparedJob} {now : Int64}

theorem closingRejections_eq_listed (idx : Indexes) (jobs : List PreparedJob) (now : Int64) :
    closingRejections idx jobs now = listed jobs fun job =>
      if idx.isClosing job.req.queue now then some (.queueClosing job.req.queue) else none := by
  rw [closingRejections, listed, ← List.filterMap_eq_map, List.filterMap_filter]
  refine List.filterMap_congr ?_
  rintro ⟨job, index⟩ -
  cases hclosing : idx.isClosing job.req.queue now <;> simp [hclosing]

theorem listed_eq_nil_iff {said : PreparedJob → Option JobRejection} :
    listed jobs said = [] ↔ ∀ job ∈ jobs, said job = none := by
  rw [listed, List.filterMap_eq_nil_iff]
  constructor
  · intro h job hjob
    obtain ⟨i, hi, rfl⟩ := List.mem_iff_getElem.mp hjob
    exact Option.map_eq_none_iff.mp (h (jobs[i], i) (List.mem_zipIdx_iff_getElem?.mpr
      (List.getElem?_eq_getElem hi)))
  · rintro h ⟨job, i⟩ hmem
    have hjob := List.mem_of_getElem? (List.mem_zipIdx_iff_getElem?.mp hmem)
    exact Option.map_eq_none_iff.mpr (h job hjob)

theorem closingRejections_eq_nil_iff :
    closingRejections idx jobs now = [] ↔
      ¬ ∃ job ∈ jobs, idx.isClosing job.req.queue now = true := by
  rw [closingRejections_eq_listed, listed_eq_nil_iff]
  simp

theorem fullRejections_eq_listed (hcaps : SameCaps jobs) :
    fullRejections (fullQueues idx jobs) jobs = listed jobs fun job =>
      (job.limits.maxQueueDepth.filter fun cap =>
        cap.toNat < idx.liveDepth job.req.queue + batchCount jobs job.req.queue).map
          (.queueFull job.req.queue) := by
  rw [fullRejections, listed]
  refine List.filterMap_congr ?_
  rintro ⟨job, i⟩ hmem
  have hjob := List.mem_of_getElem? (List.mem_zipIdx_iff_getElem?.mp hmem)
  simp only [getElem?_fullQueues hjob (hcaps job hjob), Option.map_map]
  rfl

/-- No queue is full exactly when no job is in the way. -/
theorem fullQueues_isEmpty_iff (hcaps : SameCaps jobs) :
    (fullQueues idx jobs).isEmpty = true ↔ fullRejections (fullQueues idx jobs) jobs = [] := by
  constructor
  · intro hempty
    rw [fullRejections, ExtTreeMap.isEmpty_iff.mp hempty, List.filterMap_eq_nil_iff]
    simp
  · rw [fullRejections_eq_listed hcaps, listed_eq_nil_iff]
    intro h
    rw [ExtTreeMap.isEmpty_iff]
    refine ExtTreeMap.ext_getElem? fun queue => ?_
    rw [ExtTreeMap.getElem?_empty]
    by_cases hany : ∃ job ∈ jobs, job.req.queue = queue
    · obtain ⟨job, hjob, rfl⟩ := hany
      rw [getElem?_fullQueues hjob (hcaps job hjob)]
      exact Option.map_eq_none_iff.mp (h job hjob)
    · exact getElem?_fullQueues_eq_none fun job hjob hqueue => hany ⟨job, hjob, hqueue⟩

/-- A batch that the check lets through finds its queues open and with room. -/
theorem rejectionsOf_eq_nil (h : rejectionsOf idx jobs now = []) :
    (∀ job ∈ jobs, idx.isClosing job.req.queue now = false) ∧
      ∀ job ∈ jobs, ∀ cap, job.limits.maxQueueDepth = some cap →
        idx.liveDepth job.req.queue + batchCount jobs job.req.queue ≤ cap.toNat := by
  unfold rejectionsOf at h
  split_ifs at h with hclosing
  · rw [← closingRejections_eq_listed, closingRejections_eq_nil_iff] at h
    exact absurd hclosing h
  · refine ⟨fun job hjob => ?_, fun job hjob cap hcap => ?_⟩
    · cases hc : idx.isClosing job.req.queue now with
      | false => rfl
      | true => exact absurd ⟨job, hjob, hc⟩ hclosing
    · have hnone := listed_eq_nil_iff.mp h job hjob
      rw [Option.map_eq_none_iff, Option.filter_eq_none_iff] at hnone
      have hle := hnone cap hcap
      simp only [decide_eq_true_eq] at hle
      omega

end Check

section Atomic

variable [Prost]

/-- An atomic batch is turned away by its check, with nothing changed, or it is enqueued. -/
theorem applyEnqueueAtomic_eq {jobs : List PreparedJob} (hcaps : SameCaps jobs) (now : Int64)
    (s : TxState) :
    applyEnqueueAtomic jobs now s =
      if rejectionsOf s.indexes jobs now = [] then
        (AtomicEnqueueOutcome.committed <$> jobs.mapM (enqueueAdmitted now) : TxM _) s
      else .ok (.rejected (rejectionsOf s.indexes jobs now)) s := by
  rw [applyEnqueueAtomic, bind_run_ok (getIndexes_run s), rejectionsOf]
  by_cases hclosing : ∃ job ∈ jobs, s.indexes.isClosing job.req.queue now = true
  · have hne : closingRejections s.indexes jobs now ≠ [] :=
      fun hnil => closingRejections_eq_nil_iff.mp hnil hclosing
    rw [if_pos hne, if_pos hclosing, ← closingRejections_eq_listed, if_neg hne]
    rfl
  · rw [if_neg (not_not.mpr (closingRejections_eq_nil_iff.mpr hclosing)), if_neg hclosing,
      ← fullRejections_eq_listed hcaps]
    by_cases hfull : (fullQueues s.indexes jobs).isEmpty = true
    · rw [if_pos hfull, if_pos ((fullQueues_isEmpty_iff hcaps).mp hfull), map_eq_pure_bind]
    · rw [if_neg hfull, if_neg (mt (fullQueues_isEmpty_iff hcaps).mpr hfull)]
      rfl

/-- After every run an atomic batch changes nothing and names the jobs in the way, or it does what
a best-effort batch does. -/
theorem Run.enqueueAtomic_all_or_nothing {calls : List Call} {server : Server}
    (h : Run calls server) {jobs : List PreparedJob} {now : Int64} {result : Except Status OpOutcome}
    (hadm : Admissible (calls ++ [.answered (.enqueueAtomic jobs now) result]))
    (hcaps : SameCaps jobs) (cycle : Cycle) (faults : ℕ → Option String) :
    (∀ (errors : List (UInt32 × JobRejection)) (tx : TxState),
      applyEnqueueAtomic jobs now ⟨server.rows, server.indexes, cycle, faults⟩ =
          .ok (.rejected errors) tx →
        tx = ⟨server.rows, server.indexes, cycle, faults⟩ ∧
          errors = rejectionsOf server.indexes jobs now ∧ errors ≠ []) ∧
    (∀ (resps : List EnqueueResponse) (tx : TxState),
      applyEnqueueAtomic jobs now ⟨server.rows, server.indexes, cycle, faults⟩ =
          .ok (.committed resps) tx →
        rejectionsOf server.indexes jobs now = [] ∧ resps.length = jobs.length ∧
          applyEnqueue jobs now ⟨server.rows, server.indexes, cycle, faults⟩ =
            .ok (resps.map .ok) tx) ∧
    ∃ outcome tx,
      applyEnqueueAtomic jobs now ⟨server.rows, server.indexes, cycle, fun _ => none⟩ =
        .ok outcome tx := by
  have hwf : (Op.enqueueAtomic jobs now).WellFormed :=
    hadm.wellFormed _ (List.mem_append_right _ List.mem_cons_self)
  refine ⟨fun errors tx hrun => ?_, fun resps tx hrun => ?_, ?_⟩
  · rw [applyEnqueueAtomic_eq hcaps] at hrun
    split_ifs at hrun with hnil
    · rw [map_eq_pure_bind, bind_run] at hrun
      cases hloop : jobs.mapM (enqueueAdmitted now) ⟨server.rows, server.indexes, cycle, faults⟩ <;>
        rw [hloop] at hrun <;> cases hrun
    · cases hrun
      exact ⟨rfl, rfl, hnil⟩
  · rw [applyEnqueueAtomic_eq hcaps] at hrun
    split_ifs at hrun with hnil
    swap
    · cases hrun
    rw [map_eq_pure_bind, bind_run] at hrun
    cases hloop : jobs.mapM (enqueueAdmitted now) ⟨server.rows, server.indexes, cycle, faults⟩ with
    | error e t =>
      rw [hloop] at hrun
      cases hrun
    | ok resps' t =>
      rw [hloop] at hrun
      cases hrun
      refine ⟨hnil, (mapM_turns hloop).1, ?_⟩
      obtain ⟨hopen, hroom⟩ := rejectionsOf_eq_nil hnil
      rw [applyEnqueue, mapM_enqueueOne_eq now jobs _ hwf.2 hopen hroom, map_eq_pure_bind, bind_run,
        hloop]
      rfl
  · obtain ⟨-, a, -, -, hshows, hknows⟩ := h.exists_turns
    obtain ⟨r, rows, idx, c, -, -, hrun, -⟩ := realizes_iff.mp
      (applyEnqueueAtomic_realizes ⟨now, hwf.1⟩ hwf.2 (hadm.fresh_of_knows hknows))
      server.rows server.indexes cycle hshows
    exact ⟨r, _, hrun⟩

end Atomic

/-- A job of a batch for several queues. -/
def batchJob (id queue : String) (key : Option String) (cap : Option UInt64) : PreparedJob where
  id := id
  req := { queue, jobType := "send", idempotencyKey := key }
  limits := { priority := 5, maxAttempts := 3, dedupWindowMs := 60000, maxQueueDepth := cap }

/-- A batch for two queues, one of them with a cap, with an idempotency key that comes twice. -/
def mixedBatch : List PreparedJob :=
  [batchJob "a" "emails" (some "k") (some 2), batchJob "b" "texts" none none,
    batchJob "c" "emails" (some "k") (some 2)]

open WireFormat Server in
/-- The batch goes through on the empty store; with one job more in the queue it is turned away,
although its last job would be a hit. -/
theorem enqueueAtomic_all_or_nothing_mixedBatch :
    (∃ (resps : List EnqueueResponse) (tx : TxState), resps.length = 3 ∧
      applyEnqueue mixedBatch 1000 ⟨{}, {}, {}, fun _ => none⟩ = .ok (resps.map .ok) tx) ∧
    ∃ server, Run (performAll [.enqueue [batchJob "d" "emails" none (some 2)] 500] {}).1 server ∧
      applyEnqueueAtomic mixedBatch 1000 ⟨server.rows, server.indexes, {}, fun _ => none⟩ =
        .ok (.rejected [(0, .queueFull "emails" 2), (2, .queueFull "emails" 2)])
          ⟨server.rows, server.indexes, {}, fun _ => none⟩ := by
  constructor
  · have hrun : Run (performAll [] {}).1 (performAll [] {}).2 :=
      Run.of_performAll (by decide) (by decide)
    have hadm : Admissible ((performAll [] {}).1 ++
        [(perform {} (.enqueueAtomic mixedBatch 1000)).1]) :=
      admissible_perform _ _ (by decide) (by decide)
    obtain ⟨result, hresult⟩ := exists_result {} (.enqueueAtomic mixedBatch 1000)
    rw [hresult] at hadm
    obtain ⟨hrejected, hcommitted, outcome, tx, hok⟩ :=
      Run.enqueueAtomic_all_or_nothing hrun hadm (by decide) {} fun _ => none
    cases outcome with
    | rejected errors =>
      obtain ⟨-, herrors, hne⟩ := hrejected errors tx hok
      exact absurd (herrors.trans (by decide +kernel)) hne
    | committed resps => exact ⟨resps, tx, (hcommitted resps tx hok).2⟩
  · have hrun : Run _ (performAll [.enqueue [batchJob "d" "emails" none (some 2)] 500] {}).2 :=
      Run.of_performAll (by decide) (by decide)
    refine ⟨_, hrun, ?_⟩
    have hadm : Admissible ((performAll [.enqueue [batchJob "d" "emails" none (some 2)] 500] {}).1 ++
        [(perform {} (.enqueueAtomic mixedBatch 1000)).1]) :=
      admissible_perform _ _ (by decide) (by decide)
    obtain ⟨result, hresult⟩ := exists_result {} (.enqueueAtomic mixedBatch 1000)
    rw [hresult] at hadm
    have hnamed : rejectionsOf
        (performAll [.enqueue [batchJob "d" "emails" none (some 2)] 500] {}).2.indexes mixedBatch
          1000 = [(0, .queueFull "emails" 2), (2, .queueFull "emails" 2)] := by decide +kernel
    obtain ⟨hrejected, hcommitted, outcome, tx, hok⟩ :=
      Run.enqueueAtomic_all_or_nothing hrun hadm (by decide) {} fun _ => none
    cases outcome with
    | rejected errors =>
      obtain ⟨rfl, rfl, -⟩ := hrejected errors tx hok
      rw [hok, hnamed]
    | committed resps =>
      have hnil := (hcommitted resps tx hok).1
      rw [hnamed] at hnil
      cases hnil

end Sepp
