import Sepp.Refine.Basic

/-!
# What failing reads and the record of the cycle change

An operation sees the rows and the indexes; it does not look at the record of the cycle, and of
the reads to come it only learns whether the next one fails. So an operation whose reads all go
through does what it would do if no read could fail, and leaves the errors of the later reads
alone; an operation that meets a failing read ends there with that storage error. To the record of
the cycle it adds the same queues with new ready jobs, and the same to all that the metrics report,
whatever the record says before.

## Main definitions

* `Oblivious` — the above, for a computation.

## Main results

* `Oblivious.applyOp`.
-/

namespace Sepp

/-- The state with no failing read to come. -/
def TxState.calm (s : TxState) : TxState := { s with faults := fun _ => none }

/-- A result with another future of reads. -/
def withFaults {α : Type} (faults : ℕ → Option String) :
    EStateM.Result Status TxState α → EStateM.Result Status TxState α
  | .ok r s => .ok r { s with faults }
  | .error e s => .error e { s with faults }

/-- A result with another record of the cycle. -/
def withCycle {α : Type} (cycle : Cycle) :
    EStateM.Result Status TxState α → EStateM.Result Status TxState α
  | .ok r s => .ok r { s with cycle }
  | .error e s => .error e { s with cycle }

/-- The record of the cycle that a computation ends with. -/
def cycleOf {α : Type} : EStateM.Result Status TxState α → Cycle
  | .ok _ s => s.cycle
  | .error _ s => s.cycle

/-- The first `n` reads go through. -/
def Undisturbed (faults : ℕ → Option String) (n : ℕ) : Prop := ∀ i < n, faults i = none

/-- Of the first `n` reads all go through, or there is a first one that fails. -/
theorem undisturbed_or_first (faults : ℕ → Option String) (n : ℕ) :
    Undisturbed faults n ∨ ∃ i e, i < n ∧ Undisturbed faults i ∧ faults i = some e := by
  induction n with
  | zero => exact .inl fun i hi => absurd hi (Nat.not_lt_zero i)
  | succ n ih =>
    rcases ih with hall | ⟨i, e, hi, hfirst⟩
    · cases hn : faults n with
      | none =>
        refine .inl fun i hi => ?_
        rcases Nat.lt_succ_iff_lt_or_eq.mp hi with hi | rfl
        · exact hall i hi
        · exact hn
      | some e => exact .inr ⟨n, e, Nat.lt_succ_self n, hall, hn⟩
    · exact .inr ⟨i, e, Nat.lt_succ_of_lt hi, hfirst⟩

/-- The computation depends on the rows and the indexes only. -/
structure Oblivious {α : Type} (x : TxM α) : Prop where
  /-- There is a number of reads such that, when they all go through, the rest is as if no read
  could fail, and when one of them fails the computation ends with the error of the first. -/
  faults : ∀ s : TxState, ∃ n, ∀ faults,
    (Undisturbed faults n →
      x { s with faults } = withFaults (fun i => faults (i + n)) (x s.calm)) ∧
    ∀ i e, i < n → Undisturbed faults i → faults i = some e →
      ∃ t, x { s with faults } = .error (stgErr e) t
  /-- The record of the cycle changes nothing but itself. -/
  cycle : ∀ s c, ∃ c', x { s with cycle := c } = withCycle c' (x s)
  /-- The queues that get ready jobs do not depend on the record of the cycle. -/
  readies : ∀ s : TxState, ∃ queues : List String, ∀ c queue,
    queue ∈ (cycleOf (x { s with cycle := c })).newReady ↔ queue ∈ c.newReady ∨ queue ∈ queues
  /-- What is added to the metrics does not depend on the record of the cycle. -/
  metrics : ∀ s : TxState, ∃ f, CycleMetrics.Additive f ∧
    ∀ c, (cycleOf (x { s with cycle := c })).metrics = c.metrics.map f

namespace Oblivious

variable {α β : Type}

/-- A computation that reads no row and records nothing. -/
theorem of_no_read {x : TxM α}
    (hfaults : ∀ (s : TxState) faults, x { s with faults } = withFaults faults (x s.calm))
    (hcycle : ∀ (s : TxState) c, x { s with cycle := c } = withCycle c (x s)) : Oblivious x where
  faults s := ⟨0, fun faults =>
    ⟨fun _ => hfaults s faults, fun i _ hi => absurd hi (Nat.not_lt_zero i)⟩⟩
  cycle s c := ⟨c, hcycle s c⟩
  readies s := by
    refine ⟨[], fun c queue => ?_⟩
    rw [hcycle s c]
    cases x s <;> simp [withCycle, cycleOf]
  metrics s := by
    refine ⟨id, .id, fun c => ?_⟩
    rw [hcycle s c, Option.map_id]
    cases x s <;> rfl

@[simp]
theorem pure (r : α) : Oblivious (Pure.pure r : TxM α) :=
  of_no_read (fun _ _ => rfl) fun _ _ => rfl

@[simp]
theorem throw (e : Status) : Oblivious (throw e : TxM α) :=
  of_no_read (fun _ _ => rfl) fun _ _ => rfl

@[simp]
theorem txInsert (ks : KeyspaceName) (key value : Bytes) : Oblivious (txInsert ks key value) :=
  of_no_read (fun _ _ => rfl) fun _ _ => rfl

@[simp]
theorem txRemove (ks : KeyspaceName) (key : Bytes) : Oblivious (txRemove ks key) :=
  of_no_read (fun _ _ => rfl) fun _ _ => rfl

@[simp]
theorem onIndexes (f : Indexes → Indexes) : Oblivious (onIndexes f) :=
  of_no_read (fun _ _ => rfl) fun _ _ => rfl

@[simp]
theorem getIndexes : Oblivious getIndexes :=
  of_no_read (fun _ _ => rfl) fun _ _ => rfl

/-- A note in the record of the cycle that readies the same queues in every record, and adds the
same to every metrics. -/
theorem onCycle {f : Cycle → Cycle} (queues : List String)
    (hf : ∀ c queue, queue ∈ (f c).newReady ↔ queue ∈ c.newReady ∨ queue ∈ queues)
    {g : CycleMetrics → CycleMetrics} (hg : CycleMetrics.Additive g)
    (hmetrics : ∀ c, (f c).metrics = c.metrics.map g) : Oblivious (onCycle f) where
  faults _ := ⟨0, fun _ => ⟨fun _ => rfl, fun i _ hi => absurd hi (Nat.not_lt_zero i)⟩⟩
  cycle _ c := ⟨f c, rfl⟩
  readies _ := ⟨queues, hf⟩
  metrics _ := ⟨g, hg, hmetrics⟩

@[simp]
theorem onCycle_readied (queue : String) : Oblivious (Sepp.onCycle (Cycle.readied queue)) := by
  refine onCycle [queue] (fun c q => ?_) .id fun _ => Option.map_id_apply.symm
  rw [Cycle.readied, Std.ExtTreeSet.mem_insert, Std.compare_eq_iff_eq, List.mem_singleton, or_comm,
    eq_comm]

/-- A note in the metrics of the cycle readies no queue. -/
theorem onCycle_record {f : CycleMetrics → CycleMetrics} {notes : List (Counter × String)}
    (hnotes : ∀ c : Cycle, Notes notes c (c.record f))
    (hrest : ∀ m, (∀ cause queue, (f m).read (.byCause cause queue) =
        m.read (.byCause cause queue) + (f {}).read (.byCause cause queue)) ∧
      (f m).deadLettersExpired = m.deadLettersExpired + (f {}).deadLettersExpired ∧
      (f m).deadLettersDrained = m.deadLettersDrained + (f {}).deadLettersDrained ∧
      (f m).purgedQueues = m.purgedQueues ++ (f {}).purgedQueues) :
    Oblivious (Sepp.onCycle fun c => c.record f) :=
  onCycle [] (fun c queue => by simp [Cycle.record]) (.of_notes hnotes hrest) fun _ => rfl

@[simp]
theorem onCycle_enqueued (queue : String) : Oblivious (Sepp.onCycle (Cycle.enqueued queue)) :=
  onCycle_record (Notes.enqueued · queue) fun m => by simp [CycleMetrics.read]

@[simp]
theorem onCycle_reserved (queue : String) : Oblivious (Sepp.onCycle (Cycle.reserved queue)) :=
  onCycle_record (Notes.reserved · queue) fun m => by simp [CycleMetrics.read]

@[simp]
theorem onCycle_acked (queue : String) : Oblivious (Sepp.onCycle (Cycle.acked queue)) :=
  onCycle_record (Notes.acked · queue) fun m => by simp [CycleMetrics.read]

@[simp]
theorem onCycle_nacked (queue : String) : Oblivious (Sepp.onCycle (Cycle.nacked queue)) :=
  onCycle_record (Notes.nacked · queue) fun m => by simp [CycleMetrics.read]

@[simp]
theorem onCycle_deduplicated (queue : String) :
    Oblivious (Sepp.onCycle (Cycle.deduplicated queue)) :=
  onCycle_record (Notes.deduplicated · queue) fun m => by simp [CycleMetrics.read]

@[simp]
theorem onCycle_queuePurged (queue : String) : Oblivious (Sepp.onCycle (Cycle.queuePurged queue)) :=
  onCycle_record (Notes.queuePurged · queue) fun m => by simp [CycleMetrics.read]

@[simp]
theorem onCycle_deadLettered (queue cause : String) :
    Oblivious (Sepp.onCycle (Cycle.deadLettered queue cause)) := by
  refine onCycle_record (Notes.deadLettered · queue cause) fun m => ⟨fun cause' queue' => ?_, ?_⟩
  · simp only [CycleMetrics.read, Std.ExtTreeMap.getElem?_insert]
    split_ifs with hcause
    · obtain rfl := Std.LawfulEqCmp.eq_of_compare hcause
      simp [getD_bumpQueue]
    · simp
  · simp

@[simp]
theorem onCycle_sweepPromotion (queue : String) :
    Oblivious (Sepp.onCycle (Cycle.sweepPromotion queue)) :=
  onCycle_record (Notes.promotion · queue) fun m => by simp [CycleMetrics.read]

@[simp]
theorem onCycle_sweepLeaseRedelivery (queue : String) :
    Oblivious (Sepp.onCycle (Cycle.sweepLeaseRedelivery queue)) :=
  onCycle_record (Notes.redelivery · queue) fun m => by simp [CycleMetrics.read]

@[simp]
theorem onCycle_sweepDedupExpiration (queue : String) :
    Oblivious (Sepp.onCycle (Cycle.sweepDedupExpiration queue)) :=
  onCycle_record (Notes.dedupExpiration · queue) fun m => by simp [CycleMetrics.read]

@[simp]
theorem onCycle_deadLetterExpired (n : ℕ) : Oblivious (Sepp.onCycle (Cycle.deadLetterExpired n)) :=
  onCycle_record (Notes.deadLetterExpired · n) fun m => by simp [CycleMetrics.read]

@[simp]
theorem onCycle_deadLetterDrained (n : ℕ) : Oblivious (Sepp.onCycle (Cycle.deadLetterDrained n)) :=
  onCycle_record (Notes.deadLetterDrained · n) fun m => by simp [CycleMetrics.read]

@[simp]
theorem onCycle_markDirty : Oblivious (Sepp.onCycle Cycle.markDirty) :=
  onCycle [] (fun c queue => by simp [Cycle.markDirty]) .id fun _ => Option.map_id_apply.symm

@[simp]
theorem txGet (ks : KeyspaceName) (key : Bytes) : Oblivious (txGet ks key) where
  faults s := by
    refine ⟨1, fun faults => ⟨fun hn => ?_, fun i e hi _ he => ?_⟩⟩
    · simp only [Sepp.txGet, hn 0 Nat.zero_lt_one, TxState.calm, withFaults]
    · rw [Nat.lt_one_iff.mp hi] at he
      exact ⟨{ s with faults := fun i => faults (i + 1) }, by simp only [Sepp.txGet, he]⟩
  cycle s c := by
    refine ⟨c, ?_⟩
    cases h : s.faults 0 <;> simp only [Sepp.txGet, h, withCycle]
  readies s := by
    refine ⟨[], fun c queue => ?_⟩
    cases h : s.faults 0 <;> simp [Sepp.txGet, h, cycleOf]
  metrics s := by
    refine ⟨id, .id, fun c => ?_⟩
    cases h : s.faults 0 <;> simp [Sepp.txGet, h, cycleOf]

@[simp]
theorem liftExcept (x : Except Status α) : Oblivious (liftExcept x) := by
  cases x with
  | ok r => exact pure r
  | error e => exact throw e

/-- A run without failing reads ends without failing reads. -/
theorem calm_run {x : TxM α} (hx : Oblivious x) (s : TxState) :
    x s.calm = withFaults (fun _ => none) (x s.calm) := by
  obtain ⟨n, hn⟩ := hx.faults s
  exact (hn fun _ => none).1 fun _ _ => rfl

/-- The reads of two computations in turn are those of the first and then those of the second. -/
theorem faults_bind {x : TxM α} {f : α → TxM β} (hx : Oblivious x) (hf : ∀ r, Oblivious (f r))
    (s : TxState) : ∃ n, ∀ faults,
      (Undisturbed faults n →
        (x >>= f) { s with faults } = withFaults (fun i => faults (i + n)) ((x >>= f) s.calm)) ∧
      ∀ i e, i < n → Undisturbed faults i → faults i = some e →
        ∃ t, (x >>= f) { s with faults } = .error (stgErr e) t := by
  obtain ⟨n, hn⟩ := hx.faults s
  cases hcalm : x s.calm with
  | error e t =>
    refine ⟨n, fun faults => ⟨fun hall => ?_, fun i e hi hbefore he => ?_⟩⟩
    · rw [bind_run, bind_run, (hn faults).1 hall, hcalm]
      rfl
    · obtain ⟨t, ht⟩ := (hn faults).2 i e hi hbefore he
      exact ⟨t, by rw [bind_run, ht]⟩
  | ok r t =>
    -- the second computation starts where the first one ends, with the reads that are left
    have ht : t.calm = t := by
      have h := hx.calm_run s
      rw [hcalm] at h
      exact (EStateM.Result.ok.inj h).2.symm
    have hstart : ∀ faults, Undisturbed faults n →
        (x >>= f) { s with faults } = f r { t with faults := fun i => faults (i + n) } := by
      intro faults hall
      rw [bind_run, (hn faults).1 hall, hcalm]
      rfl
    have hstart' : (x >>= f) s.calm = f r t := by rw [bind_run, hcalm]
    obtain ⟨m, hm⟩ := (hf r).faults t
    refine ⟨m + n, fun faults => ⟨fun hall => ?_, fun i e hi hbefore he => ?_⟩⟩
    · rw [hstart faults fun i hi => hall i (by omega), hstart',
        (hm _).1 fun i hi => hall (i + n) (by omega), ht]
      simp only [Nat.add_assoc]
    · by_cases hin : i < n
      · obtain ⟨t, ht⟩ := (hn faults).2 i e hin hbefore he
        exact ⟨t, by rw [bind_run, ht]⟩
      · obtain ⟨u, hu⟩ := (hm fun i => faults (i + n)).2 (i - n) e (by omega)
          (fun j hj => hbefore (j + n) (by omega))
          (by rw [Nat.sub_add_cancel (by omega)]; exact he)
        exact ⟨u, by rw [hstart faults fun j hj => hbefore j (by omega), hu]⟩

/-- The queues that two computations in turn ready are those of the first and those of the
second. -/
theorem readies_bind {x : TxM α} {f : α → TxM β} (hx : Oblivious x) (hf : ∀ r, Oblivious (f r))
    (s : TxState) : ∃ queues : List String, ∀ c queue,
      queue ∈ (cycleOf ((x >>= f) { s with cycle := c })).newReady ↔
        queue ∈ c.newReady ∨ queue ∈ queues := by
  obtain ⟨queues, hqueues⟩ := hx.readies s
  cases h : x s with
  | error e t =>
    refine ⟨queues, fun c queue => ?_⟩
    obtain ⟨c', hrun⟩ := hx.cycle s c
    rw [← hqueues c queue, bind_run, hrun, h]
    rfl
  | ok r t =>
    obtain ⟨queues', hqueues'⟩ := (hf r).readies t
    refine ⟨queues ++ queues', fun c queue => ?_⟩
    obtain ⟨c', hrun⟩ := hx.cycle s c
    rw [h] at hrun
    have hfirst := hqueues c queue
    rw [hrun] at hfirst
    have hsecond := hqueues' c' queue
    rw [List.mem_append, ← or_assoc, ← hfirst, bind_run, hrun]
    exact hsecond

/-- What two computations in turn add to the metrics is what the first adds and then what the second
does. -/
theorem metrics_bind {x : TxM α} {f : α → TxM β} (hx : Oblivious x) (hf : ∀ r, Oblivious (f r))
    (s : TxState) : ∃ g, CycleMetrics.Additive g ∧
      ∀ c, (cycleOf ((x >>= f) { s with cycle := c })).metrics = c.metrics.map g := by
  obtain ⟨g, hg, hmetrics⟩ := hx.metrics s
  cases h : x s with
  | error e t =>
    refine ⟨g, hg, fun c => ?_⟩
    obtain ⟨c', hrun⟩ := hx.cycle s c
    rw [← hmetrics c, bind_run, hrun, h]
    rfl
  | ok r t =>
    obtain ⟨g', hg', hmetrics'⟩ := (hf r).metrics t
    refine ⟨g' ∘ g, hg'.comp hg, fun c => ?_⟩
    obtain ⟨c', hrun⟩ := hx.cycle s c
    rw [h] at hrun
    have hfirst := hmetrics c
    rw [hrun] at hfirst
    rw [← Option.map_map, ← hfirst, bind_run, hrun]
    exact hmetrics' c'

theorem bind {x : TxM α} {f : α → TxM β} (hx : Oblivious x) (hf : ∀ r, Oblivious (f r)) :
    Oblivious (x >>= f) where
  faults := hx.faults_bind hf
  cycle s c := by
    obtain ⟨c', hrun⟩ := hx.cycle s c
    cases h : x s with
    | error e t => exact ⟨c', by rw [bind_run, bind_run, hrun, h]; rfl⟩
    | ok r t =>
      obtain ⟨c'', hrun'⟩ := (hf r).cycle t c'
      exact ⟨c'', by rw [bind_run, bind_run, hrun, h]; exact hrun'⟩
  readies := hx.readies_bind hf
  metrics := hx.metrics_bind hf

/-- The computation does the same in a cycle of its own, and adds to the record of the cycle the
queues that it readies there, and what it reports there. -/
theorem in_own_cycle {x : TxM α} (hx : Oblivious x) (s : TxState) (metricsEnabled : Bool) :
    ∃ c, x s = withCycle c (x { s with cycle := Cycle.new metricsEnabled }) ∧
      (∀ queue, queue ∈ c.newReady ↔ queue ∈ s.cycle.newReady ∨
        queue ∈ (cycleOf (x { s with cycle := Cycle.new metricsEnabled })).newReady) ∧
      ∃ f, CycleMetrics.Additive f ∧ c.metrics = s.cycle.metrics.map f ∧
        (cycleOf (x { s with cycle := Cycle.new metricsEnabled })).metrics =
          (Cycle.new metricsEnabled).metrics.map f := by
  obtain ⟨queues, hqueues⟩ := hx.readies { s with cycle := Cycle.new metricsEnabled }
  obtain ⟨c, hrun⟩ := hx.cycle { s with cycle := Cycle.new metricsEnabled } s.cycle
  have hcycle : cycleOf (x s) = c := by
    have hx' : x s = withCycle c (x { s with cycle := Cycle.new metricsEnabled }) := hrun
    rw [hx']
    cases x { s with cycle := Cycle.new metricsEnabled } <;> rfl
  obtain ⟨f, hf, hmetrics⟩ := hx.metrics { s with cycle := Cycle.new metricsEnabled }
  refine ⟨c, hrun, fun queue => ?_, f, hf, ?_, hmetrics _⟩
  swap
  · rw [← hmetrics s.cycle]
    exact congrArg Cycle.metrics hcycle.symm
  have hnew : queue ∉ (Cycle.new metricsEnabled).newReady := Std.ExtTreeSet.not_mem_empty
  have hown := hqueues (Cycle.new metricsEnabled) queue
  have hshared := hqueues s.cycle queue
  rw [hrun] at hshared
  rw [hown, or_iff_right hnew, ← hshared]
  cases x { s with cycle := Cycle.new metricsEnabled } <;> rfl

@[simp]
theorem map {x : TxM α} (f : α → β) (hx : Oblivious x) : Oblivious (f <$> x) := by
  rw [map_eq_pure_bind]
  exact hx.bind fun _ => pure _

@[simp]
theorem mapM {ι : Type} {f : ι → TxM α} (hf : ∀ i, Oblivious (f i)) :
    ∀ l : List ι, Oblivious (l.mapM f)
  | [] => by rw [List.mapM_nil]; exact pure []
  | i :: l => by
    rw [List.mapM_cons]
    exact (hf i).bind fun _ => (mapM hf l).bind fun _ => pure _

@[simp]
theorem forM {ι : Type} {f : ι → TxM PUnit} (hf : ∀ i, Oblivious (f i)) :
    ∀ l : List ι, Oblivious (l.forM f)
  | [] => pure ()
  | i :: l => (hf i).bind fun _ => forM hf l

end Oblivious

/-! ### The operations

The proofs follow the text of the operations: a computation that splits into cases is oblivious
in every case, a sequence is when its parts are, and the parts are simp lemmas. -/

section Operations

variable [Prost]

omit [Prost] in
@[simp]
theorem oblivious_checkDedup (req : EnqueueRequest) (now : Int64) :
    Oblivious (checkDedup req now) := by
  unfold checkDedup
  repeat' first | split | with_reducible refine .bind ?_ fun _ => ?_ | simp

omit [Prost] in
@[simp]
theorem oblivious_insertDedup (job : PreparedJob) (key : String) (now : Int64)
    (staleTimer : Option Bytes) : Oblivious (insertDedup job key now staleTimer) := by
  unfold insertDedup
  repeat' first | split | with_reducible refine .bind ?_ fun _ => ?_ | simp

@[simp]
theorem oblivious_insertPlace (job : PreparedJob) (now : Int64) :
    Oblivious (insertPlace job now) := by
  unfold insertPlace
  repeat' first | split | with_reducible refine .bind ?_ fun _ => ?_ | simp

@[simp]
theorem oblivious_insertJob (job : PreparedJob) (now : Int64) (staleTimer : Option Bytes) :
    Oblivious (insertJob job now staleTimer) := by
  unfold insertJob
  repeat' first | split | with_reducible refine .bind ?_ fun _ => ?_ | simp

theorem oblivious_applyEnqueue (jobs : List PreparedJob) (now : Int64) :
    Oblivious (applyEnqueue jobs now) := by
  refine .mapM (fun job => ?_) jobs
  unfold enqueueOne
  repeat' first | split | with_reducible refine .bind ?_ fun _ => ?_ | simp

theorem oblivious_applyEnqueueAtomic (jobs : List PreparedJob) (now : Int64) :
    Oblivious (applyEnqueueAtomic jobs now) := by
  have hbody : ∀ job, Oblivious (enqueueAdmitted now job) := by
    intro job
    unfold enqueueAdmitted
    repeat' first | split | with_reducible refine .bind ?_ fun _ => ?_ | simp
  unfold applyEnqueueAtomic
  repeat' first | split | with_reducible refine .bind ?_ fun _ => ?_ | simp [hbody]

@[simp]
theorem oblivious_maybeStoreDeadLetter (jobId : Bytes) (m : DeadLetterMeta) (kept : Bool) :
    Oblivious (maybeStoreDeadLetter jobId m kept) := by
  unfold maybeStoreDeadLetter readDeadLetterJob
  repeat' first | split | with_reducible refine .bind ?_ fun _ => ?_ | simp

theorem oblivious_applyDrain (queue : Option String) (max scanCap : ℕ) :
    Oblivious (applyDrain queue max scanCap) := by
  have hbody : ∀ key, Oblivious (drainOne key) := by
    intro key
    unfold drainOne
    repeat' first | split | with_reducible refine .bind ?_ fun _ => ?_ | simp
  unfold applyDrain
  repeat' first | split | with_reducible refine .bind ?_ fun _ => ?_ | simp [hbody]

theorem oblivious_applyRequeueDeadLetters (queue : String) (keys : List Bytes) (now : Int64) :
    Oblivious (applyRequeueDeadLetters queue keys now) := by
  refine .bind (.mapM (fun key => ?_) keys) fun _ => .pure _
  unfold requeueOne
  repeat' first | split | with_reducible refine .bind ?_ fun _ => ?_ | simp

theorem oblivious_applyDeadLetterJobs (queue : String) (state : PeekState) (keys : List Bytes)
    (reason : Option String) (kept : Bool) (now : Int64) :
    Oblivious (applyDeadLetterJobs queue state keys reason kept now) := by
  have hbody : ∀ key, Oblivious (deadLetterOne queue state reason kept now key) := by
    intro key
    unfold deadLetterOne deadLetterTarget waitingAttempt
    repeat' first | split | with_reducible refine .bind ?_ fun _ => ?_ | simp
  unfold applyDeadLetterJobs
  repeat' first | split | with_reducible refine .bind ?_ fun _ => ?_ | simp [hbody]

omit [Prost] in
theorem oblivious_applyDeleteDeadLetters (queue : String) (keys : List Bytes) :
    Oblivious (applyDeleteDeadLetters queue keys) := by
  refine .bind (.mapM (fun key => ?_) keys) fun _ => .pure _
  unfold deleteOne
  repeat' first | split | with_reducible refine .bind ?_ fun _ => ?_ | simp

@[simp]
theorem oblivious_fencedInflight (id : String) (attempt : UInt32) :
    Oblivious (fencedInflight id attempt) := by
  unfold fencedInflight
  repeat' first | split | with_reducible refine .bind ?_ fun _ => ?_ | simp

theorem oblivious_applyAck (id : String) (attempt : UInt32) : Oblivious (applyAck id attempt) := by
  unfold applyAck
  repeat' first | split | with_reducible refine .bind ?_ fun _ => ?_ | simp

theorem oblivious_applyNack (req : NackRequest) (retryDelayMs : UInt64) (kept : Bool)
    (now : Int64) : Oblivious (applyNack req retryDelayMs kept now) := by
  unfold applyNack nackDeadLetter nackRetry
  repeat' first | split | with_reducible refine .bind ?_ fun _ => ?_ | simp

theorem oblivious_applyExtend (req : ExtendRequest) (leaseMs : UInt64) (now : Int64) :
    Oblivious (applyExtend req leaseMs now) := by
  unfold applyExtend
  repeat' first | split | with_reducible refine .bind ?_ fun _ => ?_ | simp

@[simp]
theorem oblivious_reserveOne (expires : Int64) (key : Bytes) (attempt : UInt32) :
    Oblivious (reserveOne expires key attempt) := by
  unfold reserveOne leaseJob dropCorruptJob
  repeat' first | split | with_reducible refine .bind ?_ fun _ => ?_ | simp

theorem oblivious_reserveQueue (expires : Int64) (maxJobs : ℕ) (start : Bytes) :
    ∀ (turns : ℕ) (jobs : List Job), Oblivious (reserveQueue expires maxJobs start turns jobs)
  | 0, jobs => .pure jobs
  | turns + 1, jobs => by
    have ih := oblivious_reserveQueue expires maxJobs start turns
    unfold reserveQueue
    repeat' first | split | exact ih _ | with_reducible refine .bind ?_ fun _ => ?_ | simp

theorem oblivious_reserveQueues (expires : Int64) (maxJobs : ℕ) :
    ∀ (queues : List String) (jobs : List Job), Oblivious (reserveQueues expires maxJobs queues jobs)
  | [], jobs => .pure jobs
  | queue :: queues, jobs => by
    unfold reserveQueues
    split
    · simp
    · refine .bind (by simp) fun _ => .bind (oblivious_reserveQueue _ _ _ _ _) fun _ => ?_
      exact oblivious_reserveQueues expires maxJobs queues _

omit [Prost] in
theorem oblivious_purgeReady (start : Bytes) : ∀ left purged, Oblivious (purgeReady start left purged)
  | 0, purged => .pure purged
  | left + 1, purged => by
    have ih := oblivious_purgeReady start left
    unfold purgeReady
    repeat' first | split | exact ih _ | with_reducible refine .bind ?_ fun _ => ?_ | simp

omit [Prost] in
theorem oblivious_applyPurgeQueueChunk (queue : String) (max : ℕ) :
    Oblivious (applyPurgeQueueChunk queue max) := by
  have hscheduled : ∀ key, Oblivious (purgeScheduled key) := by
    intro key
    unfold purgeScheduled
    repeat' first | split | with_reducible refine .bind ?_ fun _ => ?_ | simp
  have hdead : ∀ key, Oblivious (purgeDeadLetter key) := by
    intro key
    unfold purgeDeadLetter
    repeat' first | with_reducible refine .bind ?_ fun _ => ?_ | simp
  have hdedup : ∀ key, Oblivious (purgeDedup key) := by
    intro key
    unfold purgeDedup
    repeat' first | split | with_reducible refine .bind ?_ fun _ => ?_ | simp
  unfold applyPurgeQueueChunk
  refine .bind (by simp) fun _ => ?_
  split
  · simp
  refine .bind (oblivious_purgeReady _ _ _) fun _ => .bind (by simp) fun _ => ?_
  refine .bind (.forM hscheduled _) fun _ => .bind (by simp) fun _ => ?_
  refine .bind (.forM hdead _) fun _ => .bind (by simp) fun _ => ?_
  refine .bind (.forM hdedup _) fun _ => .bind (by simp) fun _ => ?_
  repeat' first | split | with_reducible refine .bind ?_ fun _ => ?_ | simp

omit [Prost] in
theorem oblivious_sweepPhase (pick : Indexes → TimerIndex) (put : TimerIndex → Indexes → Indexes)
    (until_ : Int64) {process : Bytes → String → TxM Unit}
    (hprocess : ∀ key queue, Oblivious (process key queue)) :
    ∀ budget, Oblivious (sweepPhase pick put until_ process budget)
  | 0 => .pure 0
  | budget + 1 => by
    have ih := oblivious_sweepPhase pick put until_ hprocess budget
    unfold sweepPhase
    repeat' first
      | split | exact ih | exact hprocess _ _ | with_reducible refine .bind ?_ fun _ => ?_ | simp

theorem oblivious_applySweep (now : Int64) (budget : ℕ) (cutoff : Option Int64) (kept : Bool) :
    Oblivious (applySweep now budget cutoff kept) := by
  have hclosing : Oblivious (sweepClosing now) := by
    unfold sweepClosing
    refine .bind (by simp) fun _ => .bind (.forM (fun _ => ?_) _) fun _ => by simp
    exact .bind (by simp) fun _ => by simp
  have hpromote : ∀ key queue, Oblivious (promoteDue key queue) := by
    intro key queue
    unfold promoteDue
    repeat' first | split | with_reducible refine .bind ?_ fun _ => ?_ | simp
  have hexpire : ∀ key queue, Oblivious (expireDue now kept key queue) := by
    intro key queue
    unfold expireDue
    repeat' first | split | with_reducible refine .bind ?_ fun _ => ?_ | simp
  have hforget : ∀ key queue, Oblivious (forgetDue now key queue) := by
    intro key queue
    unfold forgetDue
    repeat' first | split | with_reducible refine .bind ?_ fun _ => ?_ | simp
  have hdead : ∀ key queue, Oblivious (expireDeadLetter key queue) := by
    intro key queue
    unfold expireDeadLetter
    exact .bind (by simp) fun _ => by simp
  unfold applySweep
  refine .bind hclosing fun _ => .bind (oblivious_sweepPhase _ _ _ hpromote _) fun _ => ?_
  refine .bind (oblivious_sweepPhase _ _ _ hexpire _) fun _ => ?_
  refine .bind (oblivious_sweepPhase _ _ _ hforget _) fun _ => ?_
  unfold sweepDeadLetters
  repeat' first
    | split
    | exact oblivious_sweepPhase _ _ _ hdead _
    | with_reducible refine .bind ?_ fun _ => ?_
    | simp

theorem oblivious_applyAuditAppend (record : AuditRecord) (now : Int64) :
    Oblivious (applyAuditAppend record now) := by
  unfold applyAuditAppend
  repeat' first | split | with_reducible refine .bind ?_ fun _ => ?_ | simp

/-- Every operation is oblivious. -/
theorem oblivious_applyOp (op : Op) : Oblivious (applyOp op) := by
  cases op with
  | enqueue => exact (oblivious_applyEnqueue _ _).bind fun _ => .pure _
  | enqueueAtomic => exact (oblivious_applyEnqueueAtomic _ _).bind fun _ => .pure _
  | reserve => exact (oblivious_reserveQueues _ _ _ _).bind fun _ => .pure _
  | ack => exact (oblivious_applyAck _ _).bind fun _ => .pure _
  | nack => exact (oblivious_applyNack _ _ _ _).bind fun _ => .pure _
  | extend => exact (oblivious_applyExtend _ _ _).bind fun _ => .pure _
  | drainDeadLetters => exact (oblivious_applyDrain _ _ _).bind fun _ => .pure _
  | closeQueue =>
    refine .bind ?_ fun _ => .pure _
    unfold applyCloseQueue
    repeat' first | with_reducible refine .bind ?_ fun _ => ?_ | simp
  | openQueue =>
    refine .bind ?_ fun _ => .pure _
    unfold applyOpenQueue
    repeat' first | split | with_reducible refine .bind ?_ fun _ => ?_ | simp
  | requeueDeadLetters => exact (oblivious_applyRequeueDeadLetters _ _ _).bind fun _ => .pure _
  | deadLetterJobs => exact (oblivious_applyDeadLetterJobs _ _ _ _ _ _).bind fun _ => .pure _
  | deleteDeadLetters => exact (oblivious_applyDeleteDeadLetters _ _).bind fun _ => .pure _
  | purgeQueueChunk => exact (oblivious_applyPurgeQueueChunk _ _).bind fun _ => .pure _
  | sweep => exact (oblivious_applySweep _ _ _ _).bind fun _ => .pure _
  | auditAppend => exact (oblivious_applyAuditAppend _ _).bind fun _ => .pure _

end Operations

end Sepp
