import Sepp.Refine.DeadLetter
import Sepp.Refine.Queue
import Sepp.Spec.Sweep

/-!
# A sweep makes events

Every phase of a sweep pops due keys one at a time; a turn of a phase pops a key and processes it,
and is one event. What a phase does to a key is what its index says about it, because the rows and
the index represent the same abstract state.
-/

open Std

namespace Sepp

variable [Prost]

/-! ### Lapsed tombstones -/

/-- The tombstones without those of the listed queues. -/
def withoutQueues (closing : String → Option Int64) (expired : List (String × Int64)) :
    String → Option Int64 :=
  expired.foldl (fun closing entry => Function.update closing entry.1 none) closing

omit [Prost] in
theorem withoutQueues_apply (expired : List (String × Int64)) (closing : String → Option Int64)
    (queue : String) : withoutQueues closing expired queue =
      if queue ∈ expired.map Prod.fst then none else closing queue := by
  induction expired generalizing closing with
  | nil => simp [withoutQueues]
  | cons entry expired ih =>
    have hfold : withoutQueues closing (entry :: expired) =
        withoutQueues (Function.update closing entry.1 none) expired := rfl
    rw [hfold, ih]
    by_cases hq : queue = entry.1
    · simp [hq]
    · rw [Function.update_of_ne hq]
      refine if_congr ?_ rfl rfl
      rw [List.map_cons, List.mem_cons, or_iff_right hq]

omit [Prost] in
theorem tracks_withoutQueues {n : ℕ} (expired : List (String × Int64)) :
    ∀ {closing : String → Option Int64} {metadata : Keyspace},
      Tracks metaOwner metadata (metaRow closing n) →
      Tracks metaOwner (expired.foldl (fun m entry => m.erase (closingKey entry.1)) metadata)
        (metaRow (withoutQueues closing expired) n) := by
  induction expired with
  | nil => exact fun h => h
  | cons entry expired ih => exact fun h => ih (MetaRepr.tracks_erase_closingKey h entry.1)

omit [Prost] in
theorem forM_removeClosing_run (expired : List (String × Int64)) (idx : Indexes) :
    ∀ (rows : Rows) (c : Cycle), (expired.forM fun (queue, _) => do
        txRemove .metadata (closingKey queue)
        onCycle Cycle.markDirty : TxM Unit) ⟨rows, idx, c, fun _ => none⟩ = .ok ()
      ⟨{ rows with
          metadata := expired.foldl (fun m entry => m.erase (closingKey entry.1)) rows.metadata },
        idx, if expired = [] then c else c.markDirty, fun _ => none⟩ := by
  induction expired with
  | nil => exact fun rows c => rfl
  | cons entry expired ih =>
    intro rows c
    have hfirst : ((entry :: expired).forM fun (queue, _) => do
        txRemove .metadata (closingKey queue)
        onCycle Cycle.markDirty : TxM Unit) ⟨rows, idx, c, fun _ => none⟩ =
        (expired.forM fun (queue, _) => do
          txRemove .metadata (closingKey queue)
          onCycle Cycle.markDirty : TxM Unit)
          ⟨rows.erase .metadata (closingKey entry.1), idx, c.markDirty, fun _ => none⟩ := rfl
    rw [hfirst, ih]
    have hdirty : (if expired = [] then c.markDirty else c.markDirty.markDirty) = c.markDirty := by
      split_ifs <;> rfl
    rw [hdirty]
    rfl

theorem sweepClosing_realizes (a : Image) (now : Int64) :
    Realizes (sweepClosing now) a fun _ evs a' =>
      (evs = [.lapse now] ∨ evs = []) ∧ a' = a.lapse now := by
  refine realizes_iff.mpr fun rows idx c hrep => ?_
  have hmem : ∀ queue,
      queue ∈ (idx.closing.toList.filter fun (_, deadline) => !(now < deadline)).map Prod.fst ↔
      ∃ deadline, a.closing queue = some deadline ∧ ¬ now < deadline := by
    intro queue
    simp only [List.mem_map, List.mem_filter, Prod.exists, exists_and_right, exists_eq_right,
      ExtTreeMap.mem_toList_iff_getElem?_eq_some, hrep.metadata.closing]
    simp
  have hclosing : withoutQueues a.closing
      (idx.closing.toList.filter fun (_, deadline) => !(now < deadline)) =
      fun queue => (a.closing queue).filter fun deadline => now < deadline := by
    funext queue
    rw [withoutQueues_apply]
    cases hq : a.closing queue with
    | none => simp
    | some deadline =>
      have hiff : queue ∈ (idx.closing.toList.filter
          fun (_, deadline) => !(now < deadline)).map Prod.fst ↔ ¬ now < deadline := by
        rw [hmem, hq]
        simp
      rw [if_congr hiff rfl rfl, Option.filter_some]
      by_cases hdue : now < deadline
      · rw [if_neg (not_not.mpr hdue), if_pos (decide_eq_true hdue)]
      · rw [if_pos hdue, if_neg (by simpa using hdue)]
  have hmeta : MetaRepr (fun queue => (a.closing queue).filter fun deadline => now < deadline)
      a.audit ((idx.closing.toList.filter fun (_, deadline) => !(now < deadline)).foldl
        (fun m entry => m.erase (closingKey entry.1)) rows.metadata) rows.audit
      (idx.closing.filter fun _ deadline => now < deadline) :=
    { metadata := hclosing ▸ tracks_withoutQueues _ hrep.metadata.metadata
      closing := fun queue => by
        rw [ExtTreeMap.getElem?_filter', hrep.metadata.closing queue]
      audit := hrep.metadata.audit
      length_lt := hrep.metadata.length_lt }
  have hrun : sweepClosing now ⟨rows, idx, c, fun _ => none⟩ = .ok ()
      ⟨{ rows with
          metadata := (idx.closing.toList.filter fun (_, deadline) => !(now < deadline)).foldl
            (fun m entry => m.erase (closingKey entry.1)) rows.metadata },
        { idx with closing := idx.closing.filter fun _ deadline => now < deadline },
        if (idx.closing.toList.filter fun (_, deadline) => !(now < deadline)) = [] then c
        else c.markDirty, fun _ => none⟩ := by
    unfold sweepClosing
    refine (bind_run_ok (getIndexes_run _)).trans ?_
    exact bind_run_ok (forM_removeClosing_run _ idx rows c)
  have hrep' := hrep.withMeta hmeta
  by_cases hnil : (idx.closing.toList.filter fun (_, deadline) => !(now < deadline)) = []
  · have hsame : (fun queue => (a.closing queue).filter fun deadline => decide (now < deadline)) =
        a.closing := by
      rw [← hclosing, hnil]
      rfl
    rw [if_pos hnil] at hrun
    rw [hsame] at hrep'
    exact ⟨(), _, _, c, [], a, hrun, .nil a, hrep', .nil c, .inr rfl,
      congrArg (fun closing => { a with closing }) hsame.symm⟩
  · rw [if_neg hnil] at hrun
    exact ⟨(), _, _, c.markDirty, _, _, hrun, .single (.lapse now), hrep',
      .of_writes rfl rfl rfl rfl (.of_eq rfl), .inl rfl, rfl⟩

/-! ### A phase -/

/-- A turn of a phase: the popped key is processed, and the timers are left as the pop has left
them. -/
def PhaseTurn (pick : Indexes → TimerIndex) (P : Event → Prop)
    (effect : List Bytes → Image → Image) (a : Image) (key : Bytes) (timers : TimerIndex)
    (evs : List Event) (a' : Image) : Prop :=
  (∀ e ∈ evs, P e) ∧ a' = effect [key] a ∧
    ∃ rows idx, Represents a' rows idx ∧ pick idx = timers

/-- A phase processes the keys that its budget lets it pop. -/
theorem sweepPhase_realizes {pick : Indexes → TimerIndex} {put : TimerIndex → Indexes → Indexes}
    {until_ : Int64} {process : Bytes → String → TxM Unit} {P : Event → Prop}
    {effect : List Bytes → Image → Image} (hnil : ∀ a, effect [] a = a)
    (hcons : ∀ a key keys, effect keys (effect [key] a) = effect (key :: keys) a)
    (hturn : ∀ {a rows idx key queue timers}, Represents a rows idx →
      (pick idx).popDue until_ = some ((key, queue), timers) →
      Realizes (onIndexes (put timers) >>= fun _ => process key queue) a
        fun _ evs a' => PhaseTurn pick P effect a key timers evs a') :
    ∀ (budget : ℕ) {a : Image} {rows : Rows} {idx : Indexes}, Represents a rows idx →
      Realizes (sweepPhase pick put until_ process budget) a fun n evs a' =>
        (∀ e ∈ evs, P e) ∧ n = ((pick idx).popAll until_ budget).length ∧
          a' = effect ((pick idx).popAll until_ budget) a
  | 0, a, _, _, _ => Refinement.Realizes.pure ⟨by simp, rfl, (hnil a).symm⟩
  | budget + 1, a, rows, idx, hrep => by
    rw [sweepPhase]
    refine Realizes.bind_getIndexes fun rows₁ idx₁ hrep₁ => ?_
    obtain rfl := hrep.idx_eq hrep₁
    rw [TimerIndex.popAll]
    cases hpop : (pick idx).popDue until_ with
    | none => exact Refinement.Realizes.pure ⟨by simp, rfl, (hnil a).symm⟩
    | some popped =>
      obtain ⟨⟨key, queue⟩, timers⟩ := popped
      dsimp only
      rw [← bind_assoc]
      refine Refinement.Realizes.bind (hturn hrep hpop) ?_
      rintro - evs a' - ⟨hevs, rfl, rows', idx', hrep', rfl⟩
      refine Refinement.Realizes.bind (sweepPhase_realizes hnil hcons hturn budget hrep') ?_
      rintro n evs' a'' - ⟨hevs', rfl, rfl⟩
      refine Refinement.Realizes.pure ⟨?_, rfl, hcons a key _⟩
      rw [List.append_nil]
      intro e he
      exact (List.mem_append.mp he).elim (hevs e) (hevs' e)

/-! ### The turns -/

section Turns

variable {a : Image} {rows : Rows} {idx : Indexes} {key : Bytes} {queue : String}
  {timers : TimerIndex} {now : Int64}

/-- The events of a sweep at `now`, with the retention cutoff and the dead-letter switch. -/
inductive SweepEvent (now : Int64) (cutoff : Option Int64) (kept : Bool) : Event → Prop
  | lapse : SweepEvent now cutoff kept (.lapse now)
  | promote (id queue : String) : SweepEvent now cutoff kept (.promote id queue now)
  | redeliver (id queue : String) : SweepEvent now cutoff kept (.redeliver id queue now)
  | bury (id queue : String) (attempt : UInt32) :
      SweepEvent now cutoff kept (.bury id queue attempt now .leaseExpired none kept)
  | forget (name : DedupName) : SweepEvent now cutoff kept (.forget name now)
  | discard (id queue : String) (key : Bytes) (record : DeadLetterRecord) {limit : Int64}
      (hcutoff : cutoff = some limit) (hdue : ¬ limit < deadlineOf key) :
      SweepEvent now cutoff kept (.discard id queue key record)

variable {cutoff : Option Int64} {kept : Bool}

theorem promoteTurn_realizes (hrep : Represents a rows idx)
    (hpop : idx.scheduled.popDue now = some ((key, queue), timers)) :
    Realizes (onIndexes (fun idx => { idx with scheduled := timers }) >>= fun _ =>
      promoteDue key queue) a fun _ evs a' =>
        PhaseTurn Indexes.scheduled (SweepEvent now cutoff kept) Image.promote a key timers evs a' := by
  obtain ⟨hkey, hdue, rfl⟩ := TimerIndex.popDue_eq_some hpop
  obtain ⟨id, js, attempt, deadline, hJ, hp, rfl, rfl⟩ := hrep.jobs.of_scheduled_entry hkey
  rw [TimerKey.deadlineOf_encode] at hdue
  refine Realizes.of_event fun rows₁ idx₁ c hrep₁ => ?_
  obtain rfl := hrep.idx_eq hrep₁
  have hlive : ¬ js.place.IsDead := by simp [hp, Place.IsDead]
  have hmoved := (hrep₁.jobs.unplace_scheduled hJ hp).place_ready (Function.update_self ..) rfl
    attempt
  have hrep' := hrep₁.setJob hmoved.of_two_moves (by simp) rfl rfl
  refine ⟨(), _, _, (c.markDirty.sweepPromotion js.content.queue).readied js.content.queue, _, _,
    ?_, Step.promote hJ hp hdue, hrep',
    .of_readies rfl rfl rfl rfl (.promotion c.markDirty js.content.queue),
    by simpa using .promote id js.content.queue, (Image.promote_singleton hJ hp).symm, _, _, hrep',
    rfl⟩
  simp only [promoteDue, bind_run, onIndexes_run, txGet_run, Rows.get,
    hrep₁.jobs.get_scheduled hJ hp, Option.bind_some, attemptOfRow_u32, txRemove_run, onCycle_run,
    TimerKey.jobIdOf_encode, Rows.erase, Rows.set, hrep₁.jobs.get_jobs hJ hlive,
    JobState.decode_jobValue, Option.getD_some, JobState.storedJob_enqueuedAt, txInsert_run]
  rfl

theorem expireTurn_realizes (hrep : Represents a rows idx)
    (hpop : idx.leases.popDue now = some ((key, queue), timers)) :
    Realizes (onIndexes (fun idx => { idx with leases := timers }) >>= fun _ =>
      expireDue now kept key queue) a fun _ evs a' =>
        PhaseTurn Indexes.leases (SweepEvent now cutoff kept) (Image.expire now kept) a key timers
          evs a' := by
  obtain ⟨hkey, hdue, rfl⟩ := TimerIndex.popDue_eq_some hpop
  obtain ⟨id, js, attempt, expires, hJ, hp, rfl, rfl⟩ := hrep.jobs.of_lease_entry hkey
  rw [TimerKey.deadlineOf_encode] at hdue
  refine Realizes.of_event fun rows₁ idx₁ c hrep₁ => ?_
  obtain rfl := hrep.idx_eq hrep₁
  have hlive : ¬ js.place.IsDead := by simp [hp, Place.IsDead]
  have hjobs := hrep₁.jobs.get_jobs hJ hlive
  have hpayloads := hrep₁.jobs.get_payloads hJ hlive
  have hout := hrep₁.jobs.unplace_leased hJ hp
  by_cases hlast : js.content.maxAttempts ≤ attempt
  · have hmoved := hout.giveUp (Function.update_self ..) rfl attempt now .leaseExpired none kept
    have hrep' := hrep₁.setJob hmoved.of_two_moves (by cases kept <;> simp) rfl rfl
    refine ⟨(), _, _, c.markDirty.deadLettered js.content.queue "lease_expired", _, _, ?_,
      Step.bury hJ .leaseExpired ⟨hlast, expires, hp, hdue⟩ none kept, hrep',
      .of_writes rfl rfl rfl rfl (.deadLettered c.markDirty js.content.queue _),
      by simpa using .bury id js.content.queue attempt,
      by rw [Image.expire_singleton hJ hp, if_pos hlast], _, _, hrep', rfl⟩
    simp only [expireDue, bind_run, onIndexes_run, txRemove_run, onCycle_run,
      TimerKey.jobIdOf_encode, txGet_run, Rows.get, Rows.erase, Rows.set,
      hrep₁.jobs.get_inflight hJ hp, JobState.decode_inflight]
    rw [if_pos (show (js.readInflight attempt expires).maxAttempts ≤
      (js.readInflight attempt expires).attempt from hlast)]
    refine (bind_run_ok (maybeStoreDeadLetter_run { rows₁ with leases := rows₁.leases.erase _ }
      hjobs hpayloads _ _ _ kept)).trans ?_
    rfl
  · have hmoved := hout.place_ready (Function.update_self ..) rfl (attempt + 1)
    have hrep' := hrep₁.setJob hmoved.of_two_moves (by simp) rfl rfl
    refine ⟨(), _, _, (c.markDirty.sweepLeaseRedelivery js.content.queue).readied js.content.queue,
      _, _, ?_, Step.redeliver hJ hp hdue (UInt32.not_le.mp hlast), hrep',
      .of_readies rfl rfl rfl rfl (.redelivery c.markDirty js.content.queue),
      by simpa using .redeliver id js.content.queue,
      by rw [Image.expire_singleton hJ hp, if_neg hlast], _, _, hrep', rfl⟩
    simp only [expireDue, bind_run, onIndexes_run, txRemove_run, onCycle_run,
      TimerKey.jobIdOf_encode, txGet_run, Rows.get, Rows.erase, Rows.set,
      hrep₁.jobs.get_inflight hJ hp, JobState.decode_inflight]
    rw [if_neg (show ¬ (js.readInflight attempt expires).maxAttempts ≤
      (js.readInflight attempt expires).attempt from hlast), fromUtf8_asBytes]
    rfl

theorem forgetTurn_realizes (hrep : Represents a rows idx)
    (hpop : idx.dedupTimers.popDue now = some ((key, queue), timers)) :
    Realizes (onIndexes (fun idx => { idx with dedupTimers := timers }) >>= fun _ =>
      forgetDue now key queue) a fun _ evs a' =>
        PhaseTurn Indexes.dedupTimers (SweepEvent now cutoff kept) Image.forget a key timers
          evs a' := by
  obtain ⟨hkey, hdue, rfl⟩ := TimerIndex.popDue_eq_some hpop
  obtain ⟨name, d, hd, rfl, rfl⟩ := hrep.dedup.of_entry hkey
  rw [dedupTimer, DedupTimerKey.deadlineOf_encode] at hdue
  refine Realizes.of_event fun rows₁ idx₁ c hrep₁ => ?_
  obtain rfl := hrep.idx_eq hrep₁
  have hrep' := hrep₁.withDedup (hrep₁.dedup.forget hd)
  refine ⟨(), _, _, (c.sweepDedupExpiration name.1.1).markDirty, _, _, ?_, Step.forget hd hdue,
    hrep', .of_writes rfl rfl rfl rfl (.dedupExpiration c name.1.1), by simpa using .forget name,
    (Image.forget_singleton hd).symm, _, _, hrep', rfl⟩
  simp only [forgetDue, bind_run, onIndexes_run, dedupTimer, DedupTimerKey.dedupKeyOf_encode,
    txGet_run, Rows.get, hrep₁.dedup.get_dedup hd, Option.bind_some, DedupValue.decode_encode,
    Option.map_some, Option.any_some, hdue, decide_false, Bool.not_false, if_true, txRemove_run,
    onCycle_run]
  rfl

theorem expireDeadLetterTurn_realizes {limit : Int64} (hrep : Represents a rows idx)
    (hpop : idx.deadLetter.popDue limit = some ((key, queue), timers)) :
    Realizes (onIndexes (fun idx => { idx with deadLetter := timers }) >>= fun _ =>
      expireDeadLetter key queue) a fun _ evs a' =>
        PhaseTurn Indexes.deadLetter (SweepEvent now (some limit) kept) Image.retain a key timers
          evs a' := by
  obtain ⟨hkey, hdue, rfl⟩ := TimerIndex.popDue_eq_some hpop
  obtain ⟨id, js, attempt, failedAt, cause, reason, hJ, hp, rfl, rfl⟩ :=
    hrep.jobs.of_dead_entry hkey
  refine Realizes.of_event fun rows₁ idx₁ c hrep₁ => ?_
  obtain rfl := hrep.idx_eq hrep₁
  have hrep' := hrep₁.setJob (hrep₁.jobs.unbury hJ hp) (by simp) rfl rfl
  exact ⟨(), _, _, c.markDirty, _, _, rfl, Step.discard hJ hp, hrep',
    .of_writes rfl rfl rfl rfl (.of_eq rfl),
    by simpa using .discard id js.content.queue _ _ rfl hdue, (Image.retain_singleton hJ hp).symm,
    _, _, hrep', rfl⟩

end Turns

/-! ### The sweep -/

/-- What a sweep has done: `n` is the number of keys it has processed. -/
def Swept (now : Int64) (budget : ℕ) (cutoff : Option Int64) (kept : Bool) (a : Image) (n : ℕ)
    (a' : Image) : Prop :=
  ∃ due expired stale old : List Bytes,
    n = due.length + expired.length + stale.length + old.length ∧
    a' = ((((a.lapse now).promote due).expire now kept expired).forget stale).retain old ∧
    (∀ rows idx, Represents a rows idx → due = idx.scheduled.popAll now budget ∧
      expired = idx.leases.popAll now budget ∧ stale = idx.dedupTimers.popAll now budget) ∧
    match cutoff with
    | none => old = []
    | some limit => ∃ rows idx,
        Represents (((a.lapse now).promote due).expire now kept expired) rows idx ∧
          old = idx.deadLetter.popAll limit budget

theorem sweepDeadLetters_realizes {a : Image} {rows : Rows} {idx : Indexes}
    (hrep : Represents a rows idx) (now : Int64) (kept : Bool) (budget : ℕ) (limit : Int64) :
    Realizes (sweepDeadLetters budget limit) a fun n evs a' =>
      (∀ e ∈ evs, SweepEvent now (some limit) kept e) ∧
        n = (idx.deadLetter.popAll limit budget).length ∧
        a' = a.retain (idx.deadLetter.popAll limit budget) := by
  refine Refinement.Realizes.bind
    (sweepPhase_realizes (P := SweepEvent now (some limit) kept) Image.retain_nil
      Image.retain_cons (fun h hpop => expireDeadLetterTurn_realizes h hpop) budget hrep)
    fun expired evs a' _ hphase => ?_
  by_cases hpos : 0 < expired
  · rw [if_pos hpos]
    refine Refinement.Realizes.bind (onCycle_realizes fun c => ⟨rfl, rfl, .deadLetterExpired c _⟩) ?_
    rintro - _ a'' - ⟨rfl, rfl⟩
    exact Refinement.Realizes.pure (by simpa using hphase)
  · rw [if_neg hpos]
    exact Refinement.Realizes.pure (by simpa using hphase)

theorem applySweep_realizes (a : Image) (now : Int64) (budget : ℕ) (cutoff : Option Int64)
    (kept : Bool) :
    Realizes (applySweep now budget cutoff kept) a fun n evs a' =>
      (∀ e ∈ evs, SweepEvent now cutoff kept e) ∧ Swept now budget cutoff kept a n a' := by
  refine Refinement.Realizes.of_rel fun s hs => ?_
  obtain ⟨hrep, -⟩ := hs
  generalize s.rows = rows at hrep
  generalize s.indexes = idx at hrep
  refine Refinement.Realizes.bind (sweepClosing_realizes a now) ?_
  rintro - evs₀ _ - ⟨h₀, rfl⟩
  refine Refinement.Realizes.of_rel fun s₁ hs₁ => ?_
  have hscheduled : s₁.indexes.scheduled = idx.scheduled :=
    hs₁.1.jobs.scheduled.index_eq hrep.jobs.scheduled rfl
  refine Refinement.Realizes.bind (sweepPhase_realizes (P := SweepEvent now cutoff kept)
    Image.promote_nil Image.promote_cons (fun h hpop => promoteTurn_realizes h hpop) budget hs₁.1) ?_
  rintro - evs₁ _ - ⟨h₁, rfl, rfl⟩
  rw [hscheduled]
  refine Refinement.Realizes.of_rel fun s₂ hs₂ => ?_
  have hleases : s₂.indexes.leases = idx.leases :=
    hs₂.1.jobs.lease.index_eq hrep.jobs.lease (Image.leaseEntry_promote _ _)
  refine Refinement.Realizes.bind (sweepPhase_realizes (P := SweepEvent now cutoff kept)
    (fun a => a.expire_nil now kept) (fun a => a.expire_cons now kept)
    (fun h hpop => expireTurn_realizes h hpop) budget hs₂.1) ?_
  rintro - evs₂ _ - ⟨h₂, rfl, rfl⟩
  rw [hleases]
  refine Refinement.Realizes.of_rel fun s₃ hs₃ => ?_
  have hdedup : s₃.indexes.dedupTimers = idx.dedupTimers :=
    hs₃.1.dedup.counted.ext hrep.dedup.counted (hs₃.1.dedup.entries.ext hrep.dedup.entries)
  refine Refinement.Realizes.bind (sweepPhase_realizes (P := SweepEvent now cutoff kept)
    Image.forget_nil Image.forget_cons (fun h hpop => forgetTurn_realizes h hpop) budget hs₃.1) ?_
  rintro - evs₃ _ - ⟨h₃, rfl, rfl⟩
  rw [hdedup]
  have hfirst : ∀ rows' idx', Represents a rows' idx' →
      idx.scheduled.popAll now budget = idx'.scheduled.popAll now budget ∧
      idx.leases.popAll now budget = idx'.leases.popAll now budget ∧
      idx.dedupTimers.popAll now budget = idx'.dedupTimers.popAll now budget := by
    intro rows' idx' hrep'
    rw [hrep.idx_eq hrep']
    exact ⟨rfl, rfl, rfl⟩
  have hall : ∀ e ∈ evs₀ ++ (evs₁ ++ (evs₂ ++ evs₃)), SweepEvent now cutoff kept e := by
    intro e he
    simp only [List.mem_append] at he
    rcases he with he | he | he | he
    · rcases h₀ with rfl | rfl
      · rw [List.mem_singleton.mp he]
        exact .lapse
      · cases he
    · exact h₁ e he
    · exact h₂ e he
    · exact h₃ e he
  cases cutoff with
  | none =>
    refine Refinement.Realizes.pure ⟨by simpa using hall, _, _, _, [], by simp, ?_, hfirst, rfl⟩
    rw [Image.retain_nil]
  | some limit =>
    refine Refinement.Realizes.of_rel fun s₄ hs₄ => ?_
    refine Refinement.Realizes.bind (sweepDeadLetters_realizes hs₄.1 now kept budget limit) ?_
    rintro - evs₄ _ - ⟨h₄, rfl, rfl⟩
    refine Refinement.Realizes.pure ⟨fun e he => ?_, _, _, _, _, rfl, rfl, hfirst, ?_⟩
    · rw [List.append_nil] at he
      simp only [List.mem_append] at he hall
      rcases he with he | he | he | he | he
      · exact hall e (.inl he)
      · exact hall e (.inr (.inl he))
      · exact hall e (.inr (.inr (.inl he)))
      · exact hall e (.inr (.inr (.inr he)))
      · exact h₄ e he
    · exact ⟨_, _, hs₃.1, by rw [hs₄.1.jobs.dead.index_eq hs₃.1.jobs.dead rfl]⟩

end Sepp
