import Sepp.Safety.Accounting
import Sepp.Safety.Backlog

/-!
# The totals that the admin interface shows

With the admin interface the committer keeps totals by queue: it adds the counts of every committed
cycle, drops a queue that has been purged, and drops a queue that was idle for long and holds
nothing. The depths and the totals of a snapshot are of one moment.

The totals of a queue are the counts of all cycles since they were last dropped, none missed and
none counted twice, and together with the depths they account for every live job.

## Main definitions

* `AdminTotals.total` — what is shown for a queue.
* `TotalsBegin` — where the totals of a queue start over.
* `Totalled` — the totals of a queue and the cycles that they count.

## Main results

* `total_foldAdminTotals`, `evictIdleAdminTotals_cases` — what the parts of a turn do to the totals.
* `loop_totals`.
-/

open Std

namespace Sepp

/-! ### Totals by counter -/

/-- The total of a counter; the counters of sweeps and of deduplication have none. -/
def QueueTotals.get (q : QueueTotals) : Counter → ℕ
  | .enqueued => q.enqueued
  | .reserved => q.reserved
  | .acked => q.acked
  | .nacked => q.nacked
  | .deadLettered => q.deadLettered
  | .deduplicated | .promotion | .redelivery | .dedupExpiration => 0

/-- The counters that have a total. -/
def shownCounters : List Counter := [.enqueued, .reserved, .acked, .nacked, .deadLettered]

/-- What is shown for a queue; nothing is shown as zero. -/
def AdminTotals.total (t : AdminTotals) (queue : String) (k : Counter) : ℕ :=
  (t.totals[queue]?.getD {}).get k

/-- What is changed adds to the total of one counter. -/
def Bumps (bump : ℕ → QueueTotals → QueueTotals) (k : Counter) : Prop :=
  ∀ n q k', (bump n q).get k' = q.get k' + if k' = k then n else 0

namespace AdminTotals

variable {t : AdminTotals} {now : Int64} {bump : ℕ → QueueTotals → QueueTotals}
  {byQueue : Counters}

/-- Every queue with totals has a time of its last activity, and no other queue has one. -/
def Paired (t : AdminTotals) : Prop := ∀ queue, queue ∈ t.totals ↔ queue ∈ t.lastActive

theorem Paired.add (h : t.Paired) (entry : String × ℕ) : (t.add now bump entry).Paired := by
  intro queue
  rw [AdminTotals.add, ExtTreeMap.mem_insert, ExtTreeMap.mem_insert, h queue]

theorem Paired.fold (h : t.Paired) : (t.fold now bump byQueue).Paired := by
  rw [AdminTotals.fold]
  induction byQueue.toList generalizing t with
  | nil => exact h
  | cons entry entries ih => exact ih (h.add entry)

theorem Paired.remove (h : t.Paired) (queue : String) : (t.remove queue).Paired := by
  intro other
  rw [AdminTotals.remove, ExtTreeMap.mem_erase_iff, ExtTreeMap.mem_erase_iff, h other]

theorem totals_fold : (t.fold now bump byQueue).totals =
    byQueue.toList.foldl (fun m e => m.insert e.1 (bump e.2 (m[e.1]?.getD {}))) t.totals := by
  rw [AdminTotals.fold]
  induction byQueue.toList generalizing t with
  | nil => rfl
  | cons entry entries ih => exact ih

/-- A fold adds the counts of one counter. -/
theorem total_fold {k : Counter} (hbump : Bumps bump k) (queue : String) (k' : Counter) :
    (t.fold now bump byQueue).total queue k' =
      t.total queue k' + if k' = k then byQueue[queue]?.getD 0 else 0 := by
  rw [total, totals_fold, ExtTreeMap.getElem?_foldl_merge byQueue (fun n q => bump n (q.getD {}))]
  cases byQueue[queue]? with
  | none => simp [total]
  | some n => simpa [total] using hbump n (t.totals[queue]?.getD {}) k'

theorem total_remove (queue other : String) (k : Counter) :
    (t.remove queue).total other k = if queue = other then 0 else t.total other k := by
  rw [total, remove, ExtTreeMap.getElem?_erase_eq]
  split_ifs
  · cases k <;> rfl
  · rfl

/-- The totals of the queues in the list are dropped, and no others. -/
theorem total_foldl_remove (queues : List String) (queue : String) (k : Counter) :
    (queues.foldl remove t).total queue k = if queue ∈ queues then 0 else t.total queue k := by
  induction queues generalizing t with
  | nil => simp
  | cons head queues ih =>
    rw [List.foldl_cons, ih, total_remove]
    by_cases hmem : queue ∈ queues
    · simp [hmem]
    · simp [hmem, eq_comm]

end AdminTotals

/-! ### The parts of a turn -/

section Parts

variable {t : AdminTotals} {now : Int64} {m : CycleMetrics}

/-- The dead letters of all causes. -/
theorem AdminTotals.total_foldl_fold {bump : ℕ → QueueTotals → QueueTotals} {k : Counter}
    (hbump : Bumps bump k) (l : List (String × Counters)) (queue : String) (k' : Counter) :
    (l.foldl (fun t (_, counts) => t.fold now bump counts) t).total queue k' =
      t.total queue k' + if k' = k then (l.map fun e => e.2[queue]?.getD 0).sum else 0 := by
  induction l generalizing t with
  | nil => simp
  | cons e l ih =>
    rw [List.foldl_cons, ih, AdminTotals.total_fold hbump, List.map_cons, List.sum_cons]
    split_ifs <;> omega

/-- The counts of a cycle are added to the totals. -/
theorem total_foldAdminTotals (queue : String) {k : Counter} (hk : k ∈ shownCounters) :
    (foldAdminTotals now m t).total queue k = t.total queue k + m.count queue k := by
  have henqueued : Bumps (fun n q => { q with enqueued := q.enqueued + n }) .enqueued := by
    rintro n q (_ | _) <;> rfl
  have hreserved : Bumps (fun n q => { q with reserved := q.reserved + n }) .reserved := by
    rintro n q (_ | _) <;> rfl
  have hacked : Bumps (fun n q => { q with acked := q.acked + n }) .acked := by
    rintro n q (_ | _) <;> rfl
  have hnacked : Bumps (fun n q => { q with nacked := q.nacked + n }) .nacked := by
    rintro n q (_ | _) <;> rfl
  have hdead : Bumps (fun n q => { q with deadLettered := q.deadLettered + n })
      .deadLettered := by
    rintro n q (_ | _) <;> rfl
  rw [foldAdminTotals, AdminTotals.total_foldl_fold hdead, AdminTotals.total_fold hnacked,
    AdminTotals.total_fold hacked, AdminTotals.total_fold hreserved,
    AdminTotals.total_fold henqueued]
  simp only [shownCounters, List.mem_cons, List.not_mem_nil, or_false] at hk
  rcases hk with rfl | rfl | rfl | rfl | rfl <;>
    simp [CycleMetrics.count, ExtTreeMap.sumOf]

theorem AdminTotals.Paired.foldAdminTotals (h : t.Paired) :
    (foldAdminTotals now m t).Paired := by
  have hcauses : ∀ (l : List (String × Counters)) (t : AdminTotals), t.Paired →
      (l.foldl (fun t (_, counts) => t.fold now
        (fun n q => { q with deadLettered := q.deadLettered + n }) counts) t).Paired := by
    intro l
    induction l with
    | nil => exact fun t ht => ht
    | cons e l ih => exact fun t ht => ih _ ht.fold
  exact hcauses _ _ h.fold.fold.fold.fold

/-- Nothing of the queue is in the indexes that hold jobs. -/
def Indexes.Lacks (idx : Indexes) (queue : String) : Prop :=
  queue ∉ idx.ready.byQueue ∧ queue ∉ idx.scheduled.byQueue ∧ queue ∉ idx.leases.byQueue ∧
    queue ∉ idx.deadLetter.byQueue

/-- An eviction drops the totals of queues that were idle and that hold nothing, and no others. -/
theorem evictIdleAdminTotals_cases (idx : Indexes) (h : t.Paired) (queue : String) :
    (∀ k, (evictIdleAdminTotals idx now t).total queue k = t.total queue k) ∨
      (∀ k, (evictIdleAdminTotals idx now t).total queue k = 0) ∧ idx.Lacks queue ∧
        ∃ at_, t.lastActive[queue]? = some at_ ∧ ¬ now - at_ < adminIdleEvictMs := by
  cases htotals : t.totals[queue]? with
  | none =>
    refine .inl fun k => ?_
    rw [AdminTotals.total, AdminTotals.total, evictIdleAdminTotals, ExtTreeMap.getElem?_filter',
      htotals]
    rfl
  | some q =>
    have hmem : queue ∈ t.lastActive := by
      rw [← h queue, ExtTreeMap.mem_iff_isSome_getElem?, htotals]
      rfl
    obtain ⟨at_, hat⟩ := ExtTreeMap.mem_iff_exists.mp hmem
    by_cases hkeep : now - at_ < adminIdleEvictMs ∨ queue ∈ idx.ready.byQueue ∨
      queue ∈ idx.scheduled.byQueue ∨ queue ∈ idx.leases.byQueue ∨ queue ∈ idx.deadLetter.byQueue
    · refine .inl fun k => ?_
      rw [AdminTotals.total, AdminTotals.total, evictIdleAdminTotals, ExtTreeMap.getElem?_filter',
        htotals, Option.filter_some, if_pos]
      simpa [hat, or_assoc] using hkeep
    · simp only [not_or] at hkeep
      obtain ⟨hidle, hready, hscheduled, hleases, hdead⟩ := hkeep
      refine .inr ⟨fun k => ?_, ⟨hready, hscheduled, hleases, hdead⟩, at_, hat, hidle⟩
      rw [AdminTotals.total, evictIdleAdminTotals, ExtTreeMap.getElem?_filter', htotals,
        Option.filter_some, if_neg]
      · cases k <;> rfl
      · simp [hat, hidle, hready, hscheduled, hleases, hdead]

theorem AdminTotals.Paired.evict (idx : Indexes) (h : t.Paired) :
    (evictIdleAdminTotals idx now t).Paired := by
  intro queue
  have hkept : queue ∈ (evictIdleAdminTotals idx now t).totals → queue ∈ t.totals := by
    intro hmem
    obtain ⟨q, hq⟩ := ExtTreeMap.mem_iff_exists.mp hmem
    rw [evictIdleAdminTotals, ExtTreeMap.getElem?_filter', Option.filter_eq_some_iff] at hq
    exact ExtTreeMap.mem_iff_exists.mpr ⟨q, hq.1⟩
  have hactive : queue ∈ (evictIdleAdminTotals idx now t).lastActive ↔ queue ∈ t.lastActive ∧
      queue ∈ (evictIdleAdminTotals idx now t).totals := by
    rw [ExtTreeMap.mem_iff_exists, ExtTreeMap.mem_iff_exists]
    simp only [evictIdleAdminTotals, ExtTreeMap.getElem?_filter', Option.filter_eq_some_iff,
      exists_and_right, ExtTreeMap.contains_iff_mem]
  rw [hactive, ← h queue]
  exact ⟨fun hmem => ⟨hkept hmem, hmem⟩, fun hmem => hmem.2⟩

end Parts

/-! ### Since when a total counts -/

/-- The counts of a cycle, if it has any, are added. -/
def reportedTotals (now : Int64) (metrics : Option CycleMetrics) (t : AdminTotals) : AdminTotals :=
  match metrics with
  | some m => foldAdminTotals now m t
  | none => t

section Loop

variable [Prost] {cfg : LoopConfig} {s s' mid : LoopState} {label : LoopLabel}
  {labels after : List LoopLabel} {queue : String}

/-- The totals of a queue start over in the state before the labels. -/
inductive TotalsBegin (cfg : LoopConfig) (queue : String) (s : LoopState) :
    List LoopLabel → Prop
  /-- The process has just been started. -/
  | life (labels : List LoopLabel) (h : s = .init s.server.rows) : TotalsBegin cfg queue s labels
  /-- A sweep has dropped the queue, which holds nothing and was not active for long. -/
  | idle {before : LoopState} {env : CycleEnv} {foldNow evictNow at_ : Int64}
      (labels : List LoopLabel) (hsweep : s = before.sweep cfg env foldNow evictNow)
      (hlacks : s.server.indexes.Lacks queue)
      (hactive : (reportedTotals foldNow (runSweepCycle env cfg.sweep before.server).metrics
        before.admin).lastActive[queue]? = some at_)
      (hidle : ¬ evictNow - at_ < adminIdleEvictMs) : TotalsBegin cfg queue s labels
  /-- The first cycle purges the queue; what it counts besides is kept. -/
  | purged {env : CycleEnv} {rpcs : List Command} {replies : List (ℕ × Reply)}
      {m : CycleMetrics} (labels : List LoopLabel)
      (hmetrics : (runRpcCycle env s.server rpcs).metrics = some m)
      (hpurged : queue ∈ m.purgedQueues) :
      TotalsBegin cfg queue s (.cycle (.rpc env rpcs) replies :: labels)

theorem TotalsBegin.append (h : TotalsBegin cfg queue s labels) (labels' : List LoopLabel) :
    TotalsBegin cfg queue s (labels ++ labels') := by
  cases h with
  | life _ h => exact .life _ h
  | idle _ hsweep hlacks hactive hidle => exact .idle _ hsweep hlacks hactive hidle
  | purged labels hmetrics hpurged => exact .purged _ hmetrics hpurged

theorem cycleMetrics_append (server : Server) (rounds rounds' : List Round) :
    cycleMetrics server (rounds ++ rounds') =
      cycleMetrics server rounds ++ cycleMetrics (server.after rounds) rounds' := by
  induction rounds generalizing server with
  | nil => rfl
  | cons round rounds ih =>
    rw [List.cons_append, cycleMetrics, ih, ← List.append_assoc]
    rfl

/-- What the steps counted for the queue. -/
def LoopState.countedBy (s : LoopState) (labels : List LoopLabel) (queue : String) (k : Counter) :
    ℕ :=
  counted (cycleMetrics s.server (labels.flatMap LoopLabel.rounds)) queue k

theorem countedBy_append (h : Trace (LoopStep cfg) mid labels s) (labels' : List LoopLabel)
    (k : Counter) : mid.countedBy (labels ++ labels') queue k =
      mid.countedBy labels queue k + s.countedBy labels' queue k := by
  rw [LoopState.countedBy, List.flatMap_append, cycleMetrics_append, counted, List.map_append,
    List.sum_append, ← server_of_loop h]
  rfl

theorem countedBy_cycle (s : LoopState) (round : Round) (replies : List (ℕ × Reply))
    (queue : String) (k : Counter) :
    s.countedBy [.cycle round replies] queue k = round.count s.server queue k := by
  rw [LoopState.countedBy, List.flatMap_singleton]
  exact (counted_cycleMetrics_cons s.server round [] queue k).trans (Nat.add_zero _)

omit [Prost] in
/-- Totals with the counts of a cycle added. -/
theorem total_reportedTotals {now : Int64} {metrics : Option CycleMetrics} {t : AdminTotals}
    {k : Counter} (hk : k ∈ shownCounters) :
    (reportedTotals now metrics t).total queue k =
      t.total queue k + metrics.elim 0 (·.count queue k) := by
  cases metrics with
  | none => rfl
  | some m => exact total_foldAdminTotals queue hk

omit [Prost] in
theorem AdminTotals.Paired.reported {now : Int64} {metrics : Option CycleMetrics}
    {t : AdminTotals} (h : t.Paired) : (reportedTotals now metrics t).Paired := by
  cases metrics with
  | none => exact h
  | some m => exact h.foldAdminTotals

/-- What a step does to the totals of a queue. -/
inductive TotalsStep (cfg : LoopConfig) (queue : String) (s : LoopState) (label : LoopLabel)
    (s' : LoopState) : Prop
  | restart (h : s' = .init s'.server.rows)
  | dropped (h : TotalsBegin cfg queue s' []) (htotal : ∀ k, s'.admin.total queue k = 0)
  | purged (hlive : Live [label]) (h : TotalsBegin cfg queue s [label])
      (htotal : ∀ k ∈ shownCounters, s'.admin.total queue k = s.countedBy [label] queue k)
  | counted (hlive : Live [label]) (htotal : ∀ k ∈ shownCounters,
      s'.admin.total queue k = s.admin.total queue k + s.countedBy [label] queue k)

/-- A cycle of commands adds its counts, to nothing for the queues that it purged. -/
theorem LoopState.totals_rpc (hadmin : cfg.adminEnabled = true) (s : LoopState) (env : CycleEnv)
    (rpcs : List Command) (foldNow : Int64) (hpaired : s.admin.Paired) :
    (s.rpc cfg env rpcs foldNow).admin.Paired ∧ ∀ queue, TotalsStep cfg queue s
      (.cycle (.rpc env rpcs) (runRpcCycle env s.server rpcs).replies)
      (s.rpc cfg env rpcs foldNow) := by
  have hlive : Live [.cycle (.rpc env rpcs) (runRpcCycle env s.server rpcs).replies] := by
    simp [Live]
  have hadd : (s.rpc cfg env rpcs foldNow).admin =
      totalsAfterRpc foldNow (runRpcCycle env s.server rpcs).metrics s.admin := if_pos hadmin
  cases hmetrics : (runRpcCycle env s.server rpcs).metrics with
  | none =>
    rw [hmetrics] at hadd
    refine ⟨hadd ▸ hpaired, fun queue => .counted hlive fun k hk => ?_⟩
    rw [hadd, countedBy_cycle, Round.count, Round.run, hmetrics]
    rfl
  | some m =>
    rw [hmetrics] at hadd
    have hremoved : ∀ (queues : List String) (t : AdminTotals), t.Paired →
        (queues.foldl AdminTotals.remove t).Paired := by
      intro queues
      induction queues with
      | nil => exact fun t ht => ht
      | cons head queues ih => exact fun t ht => ih _ (ht.remove head)
    refine ⟨hadd ▸ (hremoved m.purgedQueues s.admin hpaired).foldAdminTotals, fun queue => ?_⟩
    have htotal : ∀ k ∈ shownCounters, (s.rpc cfg env rpcs foldNow).admin.total queue k =
        (if queue ∈ m.purgedQueues then 0 else s.admin.total queue k) +
          s.countedBy [.cycle (.rpc env rpcs) (runRpcCycle env s.server rpcs).replies] queue k := by
      intro k hk
      rw [hadd, countedBy_cycle, Round.count, Round.run, hmetrics, totalsAfterRpc,
        total_foldAdminTotals queue hk, AdminTotals.total_foldl_remove]
      rfl
    by_cases hpurged : queue ∈ m.purgedQueues
    · simp only [if_pos hpurged, Nat.zero_add] at htotal
      exact .purged hlive (.purged [] hmetrics hpurged) htotal
    · simp only [if_neg hpurged] at htotal
      exact .counted hlive htotal

/-- A sweep adds its counts and then drops the queues that are idle. -/
theorem LoopState.totals_sweep (hadmin : cfg.adminEnabled = true) (s : LoopState) (env : CycleEnv)
    (foldNow evictNow : Int64) (hpaired : s.admin.Paired) :
    (s.sweep cfg env foldNow evictNow).admin.Paired ∧ ∀ queue, TotalsStep cfg queue s
      (.cycle (.sweep env cfg.sweep) []) (s.sweep cfg env foldNow evictNow) := by
  have hadd : (s.sweep cfg env foldNow evictNow).admin =
      evictIdleAdminTotals (runSweepCycle env cfg.sweep s.server).server.indexes evictNow
        (reportedTotals foldNow (runSweepCycle env cfg.sweep s.server).metrics s.admin) :=
    if_pos hadmin
  have hreported : (reportedTotals foldNow (runSweepCycle env cfg.sweep s.server).metrics
      s.admin).Paired := hpaired.reported
  refine ⟨hadd ▸ hreported.evict _, fun queue => ?_⟩
  rcases evictIdleAdminTotals_cases (runSweepCycle env cfg.sweep s.server).server.indexes hreported
    queue with hkept | ⟨hzero, hlacks, at_, hactive, hidle⟩
  · refine .counted (by simp [Live]) fun k hk => ?_
    rw [hadd, hkept, total_reportedTotals hk, countedBy_cycle]
    rfl
  · exact .dropped (.idle [] rfl hlacks hactive hidle) fun k => by rw [hadd, hzero]

theorem LoopStep.totals (h : LoopStep cfg s label s') (hadmin : cfg.adminEnabled = true)
    (hpaired : s.admin.Paired) :
    s'.admin.Paired ∧ ∀ queue, TotalsStep cfg queue s label s' := by
  have hempty : AdminTotals.Paired {} := fun queue => by simp
  cases h with
  | send | close | quiet | take | timeout | stop | drain | publish =>
    exact ⟨hpaired, fun queue => .counted (by simp [Live]) fun k _ => (Nat.add_zero _).symm⟩
  | @sweep now env foldNow evictNow => exact s.totals_sweep hadmin env foldNow evictNow hpaired
  | @rpc env rpcs foldNow => exact s.totals_rpc hadmin env rpcs foldNow hpaired
  | crash | crashBefore | crashAfter => exact ⟨hempty, fun queue => .restart rfl⟩

/-! ### Runs of the loop -/

/-- The totals of a queue are the counts of the cycles since they started over, in a life of the
process. -/
structure CountedSince (cfg : LoopConfig) (queue : String) (s : LoopState)
    (labels : List LoopLabel) (s' : LoopState) : Prop where
  trace : Trace (LoopStep cfg) s labels s'
  live : Live labels
  begins : TotalsBegin cfg queue s labels
  total : ∀ k ∈ shownCounters, s'.admin.total queue k = s.countedBy labels queue k

theorem CountedSince.start (h : TotalsBegin cfg queue s [])
    (htotal : ∀ k, s.admin.total queue k = 0) : CountedSince cfg queue s [] s where
  trace := .nil s
  live _ _ hmem := absurd hmem List.not_mem_nil
  begins := h
  total k _ := htotal k

/-- A restart drops everything. -/
theorem CountedSince.of_init {rows : Rows} (queue : String) (h : s = .init rows) :
    CountedSince cfg queue s [] s := by
  subst h
  exact .start (.life [] rfl) fun k => by cases k <;> rfl

/-- The steps of a loop since the totals of a queue started over. -/
theorem countedSince_of_loop (hadmin : cfg.adminEnabled = true)
    (h : Trace (LoopStep cfg) (.init {}) labels s) :
    s.admin.Paired ∧ ∀ queue, ∃ before after mid, labels = before ++ after ∧
      Trace (LoopStep cfg) (.init {}) before mid ∧ CountedSince cfg queue mid after s := by
  refine Trace.history (P := fun labels s => s.admin.Paired ∧ ∀ queue, ∃ before after mid,
    labels = before ++ after ∧ Trace (LoopStep cfg) (.init {}) before mid ∧
      CountedSince cfg queue mid after s) ⟨fun queue => ?_, fun queue => ?_⟩ ?_ h
  · simp [LoopState.init]
  · exact ⟨[], [], _, rfl, .nil _, .of_init queue rfl⟩
  rintro labels label s s' htrace ⟨hpaired, hsince⟩ hstep
  obtain ⟨hpaired', htotals⟩ := hstep.totals hadmin hpaired
  refine ⟨hpaired', fun queue => ?_⟩
  have hwhole : Trace (LoopStep cfg) (.init {}) (labels ++ [label]) s' :=
    htrace.append (.single hstep)
  cases htotals queue with
  | restart h => exact ⟨_, [], s', (List.append_nil _).symm, hwhole, .of_init queue h⟩
  | dropped h htotal => exact ⟨_, [], s', (List.append_nil _).symm, hwhole, .start h htotal⟩
  | purged hlive h htotal => exact ⟨labels, [label], s, rfl, htrace, .single hstep, hlive, h, htotal⟩
  | counted hlive htotal =>
    obtain ⟨before, after, mid, rfl, hbefore, hcounted⟩ := hsince queue
    refine ⟨before, after ++ [label], mid, List.append_assoc .., hbefore,
      hcounted.trace.append (.single hstep), ?_, hcounted.begins.append _, fun k hk => ?_⟩
    · intro committed replies hmem
      exact (List.mem_append.mp hmem).elim (hcounted.live committed replies)
        (hlive committed replies)
    · rw [htotal k hk, hcounted.total k hk, countedBy_append hcounted.trace]

/-- The cycles of a loop with the admin interface keep metrics. -/
theorem LoopStep.records (h : LoopStep cfg s label s') (hrecords : cfg.records = true) :
    ∀ round ∈ label.rounds, round.records = true := by
  intro round hround
  cases h with
  | send | close | quiet | take | timeout | stop | drain | publish => cases hround
  | sweep _ _ henv | rpc _ _ henv =>
    rw [List.mem_singleton.mp hround]
    exact henv.trans hrecords
  | crash | crashBefore =>
    rw [List.mem_singleton.mp hround]
    rfl
  | crashAfter _ _ henv =>
    rcases List.mem_cons.mp hround with rfl | hround
    · exact henv.trans hrecords
    · rw [List.mem_singleton.mp hround]
      rfl

theorem records_of_loop (h : Trace (LoopStep cfg) s labels s') (hrecords : cfg.records = true) :
    ∀ round ∈ labels.flatMap LoopLabel.rounds, round.records = true := by
  induction h with
  | nil => exact fun round hround => absurd hround List.not_mem_nil
  | cons hstep _ ih =>
    intro round hround
    rw [List.flatMap_cons, List.mem_append] at hround
    exact hround.elim (hstep.records hrecords round) (ih round)

/-- The totals of a queue count all of its jobs: the live jobs it had when the totals started over,
those enqueued and requeued since, and those acked, dead-lettered and purged since, make up the
live jobs that it has. -/
def Balanced (queue : String) (s : LoopState) (labels : List LoopLabel) (s' : LoopState) : Prop :=
  s'.server.indexes.liveDepth queue + s'.admin.total queue .acked +
      s'.admin.total queue .deadLettered +
      purgedLive queue s.server (committedCalls s.server (labels.flatMap LoopLabel.rounds)) =
    s.server.indexes.liveDepth queue + s'.admin.total queue .enqueued +
      ((committedCalls s.server (labels.flatMap LoopLabel.rounds)).map
        (Call.requeuedOf queue)).sum

theorem CountedSince.balanced (hcounted : CountedSince cfg queue mid after s)
    (hbefore : Trace (LoopStep cfg) (.init {}) labels mid) (hrecords : cfg.records = true)
    (hadm : AdmissibleRounds ((labels ++ after).flatMap LoopLabel.rounds)) :
    Balanced queue mid after s := by
  have hnew : (LoopState.init {}).server = {} := Server.shows_empty.rolledBack_eq
  rw [List.flatMap_append] at hadm
  have hmid : mid.server = Server.after {} (labels.flatMap LoopLabel.rounds) := by
    rw [server_of_loop hbefore, hnew]
  obtain ⟨a, hshows, hknows⟩ := exists_shows_after hadm.of_append
  rw [← hmid] at hshows
  have hfresh := hadm.fresh
  rw [List.flatMap_append, jobIdsOf_append] at hfresh
  have hbalance := balance_of_rounds hshows hknows
    (fun round hround => hadm.wellFormed round (List.mem_append_right _ hround)) hfresh
    (records_of_loop hcounted.trace hrecords) queue
  rw [← server_of_loop hcounted.trace] at hbalance
  rw [Balanced, hcounted.total .acked (by decide), hcounted.total .deadLettered (by decide),
    hcounted.total .enqueued (by decide)]
  exact hbalance

/-- What is published: nothing yet in this life of the process, or the depths and the totals of one
moment of it. -/
def Published (cfg : LoopConfig) (labels : List LoopLabel) (s : LoopState) : Prop :=
  s.snapshot = {} ∨ ∃ before after mid, labels = before ++ after ∧
    Trace (LoopStep cfg) (.init {}) before mid ∧ Trace (LoopStep cfg) mid after s ∧ Live after ∧
    s.snapshot.depths = mid.server.indexes.snapshot ∧ s.snapshot.totals = mid.admin.totals

/-- What is published, after one more step. -/
theorem LoopStep.published (h : LoopStep cfg s label s')
    (hbefore : Trace (LoopStep cfg) (.init {}) labels s) (hs : Published cfg labels s) :
    Published cfg (labels ++ [label]) s' := by
  -- a step that is no publishing leaves the snapshot as it is
  have hstay : Live [label] → s'.snapshot = s.snapshot → Published cfg (labels ++ [label]) s' := by
    intro hlive hsame
    rw [Published, hsame]
    refine hs.imp_right ?_
    rintro ⟨before, after, mid, rfl, hmid, hafter, halive, hshown⟩
    refine ⟨before, after ++ [label], mid, List.append_assoc .., hmid,
      hafter.append (.single h), fun committed replies hmem => ?_, hshown⟩
    exact (List.mem_append.mp hmem).elim (halive committed replies) (hlive committed replies)
  cases h with
  | send | close | quiet | take | timeout | stop | drain | sweep | rpc =>
    exact hstay (by simp [Live]) rfl
  | @publish due now hphase =>
    by_cases hdue : (cfg.adminEnabled && due) = true
    · have hstep := Trace.single (@LoopStep.publish _ cfg s due now hphase)
      refine .inr ⟨labels, [.publish], s, rfl, hbefore, hstep, by simp [Live], ?_⟩
      simp [LoopState.publish, hdue]
    · exact hstay (by simp [Live]) (if_neg hdue)
  | crash | crashBefore | crashAfter => exact .inl rfl

/-- The totals of the admin interface, in every run of the loop, whatever is sent and however often
the process dies: those of a queue are the counts of the cycles since they started over, which they
do when the process starts, when the queue is purged, and when it has been idle and holds nothing;
and they account for the live jobs. What is published are the depths and the totals of one
moment. -/
theorem loop_totals (hadmin : cfg.adminEnabled = true)
    (htrace : Trace (LoopStep cfg) (.init {}) labels s)
    (hadm : AdmissibleRounds (labels.flatMap LoopLabel.rounds)) :
    (∀ queue, ∃ before after mid, labels = before ++ after ∧
      Trace (LoopStep cfg) (.init {}) before mid ∧ CountedSince cfg queue mid after s ∧
      Balanced queue mid after s) ∧
    Published cfg labels s := by
  constructor
  · intro queue
    obtain ⟨before, after, mid, rfl, hbefore, hcounted⟩ :=
      (countedSince_of_loop hadmin htrace).2 queue
    have hrecords : cfg.records = true := by rw [LoopConfig.records, hadmin, Bool.or_true]
    exact ⟨before, after, mid, rfl, hbefore, hcounted, hcounted.balanced hbefore hrecords hadm⟩
  · refine Trace.history (.inl rfl) (fun labels label s s' hbefore hs hstep => ?_) htrace
    exact hstep.published hbefore hs

end Loop

/-! ### A loop with the admin interface -/

/-- A loop that keeps totals. -/
def adminLoop : LoopConfig := ⟨⟨100, 0⟩, false, true⟩

open WireFormat in
/-- The totals of a queue in which a job was enqueued and reserved. -/
theorem loop_totals_shortLease : ∃ labels s, Trace (LoopStep adminLoop) (.init {}) labels s ∧
    labels.flatMap LoopLabel.rounds = [.rpc (calmEnv 1000 true) shortLease] ∧
    (∀ queue, ∃ before after mid, labels = before ++ after ∧
      Trace (LoopStep adminLoop) (.init {}) before mid ∧
      CountedSince adminLoop queue mid after s ∧ Balanced queue mid after s) ∧
    Published adminLoop labels s := by
  obtain ⟨labels, s, htrace, -, hrounds, -, -, -, -, -⟩ :=
    exists_turn_of_loop adminLoop rfl rfl rfl (not_sweepDue_init _ 0)
      (rfl : (calmEnv 1000 true).metricsEnabled = adminLoop.records)
      (.op (.enqueue [plainJob "a"] 0) 0) [.op (.reserve ["emails"] 10 1 0) 1]
  exact ⟨labels, s, htrace, hrounds,
    loop_totals rfl htrace (by rw [hrounds]; exact ⟨by decide, by decide⟩)⟩

end Sepp
