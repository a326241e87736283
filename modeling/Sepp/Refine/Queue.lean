import Sepp.Refine.Lease

/-!
# Closing, opening and purging a queue make events

The audit log is here too: like the tombstones it lives in `meta`.
-/

open Std

namespace Sepp

variable [Prost]

/-- Recording metrics is no event. -/
theorem onCycle_realizes {a : Image} {f : Cycle → Cycle}
    (hf : ∀ c, (f c).dirty = c.dirty ∧ (f c).newReady = c.newReady ∧ Notes [] c (f c)) :
    Realizes (onCycle f) a fun _ evs a' => evs = [] ∧ a' = a := by
  refine realizes_iff.mpr fun rows idx c hrep => ?_
  refine ⟨(), rows, idx, f c, [], a, rfl, .nil a, hrep, ⟨?_, ?_, ?_, (hf c).2.2⟩, rfl, rfl⟩
  · simp [(hf c).1]
  · intro queue hqueue
    rwa [(hf c).2.1]
  · intro e he
    cases he

/-! ### Close, open and audit -/

theorem applyCloseQueue_realizes (a : Image) (queue : String) (now graceMs : Int64) :
    Realizes (applyCloseQueue queue now graceMs) a fun _ evs _ =>
      evs = [.close queue (saturatingAdd now graceMs)] := by
  refine Realizes.of_event fun rows idx c hrep => ?_
  exact ⟨(), _, _, c.markDirty, _, _, rfl, .close queue (saturatingAdd now graceMs),
    hrep.withMeta (hrep.metadata.close queue _), .of_writes rfl rfl rfl rfl (.of_eq rfl), rfl⟩

theorem applyOpenQueue_realizes (a : Image) (queue : String) :
    Realizes (applyOpenQueue queue) a fun _ evs _ => evs = [.reopen queue] ∨ evs = [] := by
  refine Realizes.bind_getIndexes fun rows₀ idx₀ hrep₀ => ?_
  by_cases hclosing : (idx₀.closing[queue]?).isSome
  · rw [if_pos hclosing]
    refine Realizes.of_event fun rows idx c hrep => ?_
    exact ⟨(), _, _, c.markDirty, _, _, rfl, .reopen queue,
      hrep.withMeta (hrep.metadata.reopen queue), .of_writes rfl rfl rfl rfl (.of_eq rfl), .inl rfl⟩
  · rw [if_neg hclosing]
    exact Refinement.Realizes.pure (.inr rfl)

omit [Prost] in
/-- The sequence number after the length of a log that is not full. -/
theorem nextAuditSeq_seqBytes {n : ℕ} (h : n + 1 < 2 ^ 64) :
    nextAuditSeq (seqBytes (UInt64.ofNat n)) = some (UInt64.ofNat (n + 1)) := by
  have hlen : (seqBytes (UInt64.ofNat n)).length = 8 := BigEndian.length_toBytes _ _
  have hn : n < 2 ^ 64 := by omega
  have hseq : (UInt64.ofNat n).toNat = n := UInt64.toNat_ofNat_of_lt' hn
  rw [nextAuditSeq, if_pos hlen, ofBytes_seqBytes hn]
  dsimp only
  rw [hseq, if_pos h]
  congr 1
  apply UInt64.toNat_inj.mp
  rw [UInt64.toNat_add, hseq, UInt64.toNat_ofNat_of_lt' h, UInt64.toNat_one]
  exact Nat.mod_eq_of_lt h

omit [Prost] in
/-- There is no sequence number after the last. -/
theorem nextAuditSeq_seqBytes_last {n : ℕ} (h : n + 1 = 2 ^ 64) :
    nextAuditSeq (seqBytes (UInt64.ofNat n)) = none := by
  have hlen : (seqBytes (UInt64.ofNat n)).length = 8 := BigEndian.length_toBytes _ _
  have hn : n < 2 ^ 64 := by omega
  have hseq : (UInt64.ofNat n).toNat = n := UInt64.toNat_ofNat_of_lt' hn
  rw [nextAuditSeq, if_pos hlen, ofBytes_seqBytes hn]
  dsimp only
  rw [hseq, if_neg (by omega)]

theorem applyAuditAppend_run_seq {rows : Rows} {value : Bytes} {seq : UInt64}
    (hget : rows.metadata[auditSeqKey]? = some value) (hnext : nextAuditSeq value = some seq)
    (record : AuditRecord) (now : Int64) (idx : Indexes) (c : Cycle) :
    applyAuditAppend record now ⟨rows, idx, c, fun _ => none⟩ = .ok seq
        ⟨{ rows with
            metadata := rows.metadata.insert auditSeqKey (seqBytes seq)
            audit := rows.audit.insert (seqBytes seq) (AuditValue.encode { tsMs := now, record }) },
          idx, c.markDirty, fun _ => none⟩ := by
  simp only [applyAuditAppend, bind_run, txGet_run, Rows.get, hget, hnext, pure_run, txInsert_run,
    onCycle_run, Rows.insert, Rows.set]

theorem applyAuditAppend_run {a : Image} {rows : Rows} {idx : Indexes} (hrep : Represents a rows idx)
    (record : AuditRecord) (now : Int64) (hroom : a.audit.length + 1 < 2 ^ 64) (c : Cycle) :
    applyAuditAppend record now ⟨rows, idx, c, fun _ => none⟩ =
      .ok (UInt64.ofNat (a.audit.length + 1))
        ⟨{ rows with
            metadata := rows.metadata.insert auditSeqKey
              (seqBytes (UInt64.ofNat (a.audit.length + 1)))
            audit := rows.audit.insert (seqBytes (UInt64.ofNat (a.audit.length + 1)))
              (AuditValue.encode { tsMs := now, record }) },
          idx, c.markDirty, fun _ => none⟩ := by
  by_cases hlen : a.audit.length = 0
  · have hget : rows.metadata[auditSeqKey]? = none := by rw [hrep.metadata.get_auditSeq, if_pos hlen]
    have hone : UInt64.ofNat (a.audit.length + 1) = 1 := by rw [hlen]; rfl
    simp only [applyAuditAppend, bind_run, txGet_run, Rows.get, hget, pure_run, txInsert_run,
      onCycle_run, hone, Rows.insert, Rows.set]
  · have hget : rows.metadata[auditSeqKey]? = some (seqBytes (UInt64.ofNat a.audit.length)) := by
      rw [hrep.metadata.get_auditSeq, if_neg hlen]
    exact applyAuditAppend_run_seq hget (nextAuditSeq_seqBytes hroom) record now idx c

theorem applyAuditAppend_realizes {a : Image} (record : AuditRecord) (now : Int64)
    (hroom : a.audit.length + 1 < 2 ^ 64) :
    Realizes (applyAuditAppend record now) a fun r evs _ =>
      r = UInt64.ofNat (a.audit.length + 1) ∧ evs = [.append (now, record)] := by
  refine Realizes.of_event fun rows idx c hrep => ?_
  exact ⟨_, _, _, c.markDirty, _, _, applyAuditAppend_run hrep record now hroom c,
    .append (now, record), hrep.withMeta (hrep.metadata.append (now, record) hroom),
    .of_writes rfl rfl rfl rfl (.of_eq rfl), rfl, rfl⟩

theorem applyAuditAppend_run_corrupt {rows : Rows} {value : Bytes}
    (hget : rows.metadata[auditSeqKey]? = some value) (hnext : nextAuditSeq value = none)
    (record : AuditRecord) (now : Int64) (idx : Indexes) (c : Cycle) :
    applyAuditAppend record now ⟨rows, idx, c, fun _ => none⟩ =
      .error ⟨.internal, "corrupt audit_seq row"⟩ ⟨rows, idx, c, fun _ => none⟩ := by
  simp only [applyAuditAppend, bind_run, txGet_run, Rows.get, hget, hnext, throw_run]

/-- A log with as many entries as there are sequence numbers takes no more. -/
theorem applyAuditAppend_rejects {a : Image} (record : AuditRecord) (now : Int64)
    (hfull : a.audit.length + 1 = 2 ^ 64) :
    Rejects (applyAuditAppend record now) a fun e => e.code = .internal := by
  rintro ⟨rows, idx, c, _⟩ ⟨hrep, rfl⟩
  have hlen : a.audit.length ≠ 0 := by omega
  have hget : rows.metadata[auditSeqKey]? = some (seqBytes (UInt64.ofNat a.audit.length)) := by
    rw [hrep.metadata.get_auditSeq, if_neg hlen]
  exact ⟨_, applyAuditAppend_run_corrupt hget (nextAuditSeq_seqBytes_last hfull) record now idx c,
    rfl⟩

/-! ### Purge -/

/-- What a purge of a queue does. -/
def PurgesQueue (queue : String) (e : Event) : Prop :=
  (∃ id, e = .purge id queue) ∨ (∃ id key record, e = .discard id queue key record) ∨
    ∃ name : DedupName, name.1 = queue ∧ e = .purgeDedup name

/-- The ready jobs go first. A loop that stops early leaves no ready job of the queue. -/
theorem purgeReady_realizes {queue : String} (hq : FitsPrefix queue) :
    ∀ (left purged : ℕ) (a : Image),
      Realizes (purgeReady (queuePrefix queue) left purged) a fun r evs a' =>
        r = purged + evs.length ∧ (∀ e ∈ evs, PurgesQueue queue e) ∧ evs.length ≤ left ∧
          (evs.length < left → a'.NoReady (queuePrefix queue))
  | 0, purged, a => Refinement.Realizes.pure ⟨rfl, by simp⟩
  | left + 1, purged, a => by
    rw [purgeReady]
    refine Realizes.bind_getIndexes fun rows idx hrep => ?_
    cases hpop : idx.ready.popFront (queuePrefix queue) with
    | none =>
      refine Refinement.Realizes.pure ⟨rfl, by simp, by simp, fun _ id js attempt hJ hp => ?_⟩
      exact ReadyIndex.popFront_eq_none hpop (hrep.jobs.get_ready_entry hJ hp)
    | some popped =>
      obtain ⟨⟨key, attempt⟩, ready⟩ := popped
      obtain ⟨hkey, hpre, rfl⟩ := ReadyIndex.popFront_eq_some hpop
      obtain ⟨id, js, hJ, hp, rfl⟩ := hrep.jobs.of_ready_entry hkey
      obtain rfl := queue_eq_of_isPrefix hq hpre
      have hturn : Realizes (do
          onIndexes fun idx₁ => { idx₁ with ready := (idx.ready.remove (js.readyKey id)).2 }
          txRemove .jobs (asBytes id)
          txRemove .payloads (asBytes id)
          txRemove .ready (js.readyKey id)
          onCycle Cycle.markDirty : TxM Unit) a
          fun _ evs _ => evs = [.purge id js.content.queue] := by
        refine Realizes.of_event fun rows₁ idx₁ c hrep₁ => ?_
        obtain rfl := hrep.idx_eq hrep₁
        have hmoved := (hrep₁.jobs.unplace_ready hJ hp).remove_job (Function.update_self ..) rfl
        exact ⟨(), _, _, c.markDirty, _, _, rfl, Step.purge hJ (.inl hp),
          hrep₁.setJob hmoved.of_two_moves (by simp) rfl rfl,
          .of_writes rfl rfl rfl rfl (.of_eq rfl), rfl⟩
      have hprog : Realizes ((do
          onIndexes fun idx₁ => { idx₁ with ready := (idx.ready.remove (js.readyKey id)).2 }
          txRemove .jobs (asBytes id)
          txRemove .payloads (asBytes id)
          txRemove .ready (js.readyKey id)
          onCycle Cycle.markDirty : TxM Unit) >>= fun _ =>
            purgeReady (queuePrefix js.content.queue) left (purged + 1)) a fun r evs a' =>
              r = purged + evs.length ∧ (∀ e ∈ evs, PurgesQueue js.content.queue e) ∧
                evs.length ≤ left + 1 ∧
                (evs.length < left + 1 → a'.NoReady (queuePrefix js.content.queue)) := by
        refine Refinement.Realizes.bind hturn ?_
        rintro - _ a' - rfl
        refine (purgeReady_realizes hq left (purged + 1) a').mono
          fun r evs a'' _ ⟨hr, hmem, hle, hlast⟩ => ?_
        rw [List.singleton_append, List.length_cons]
        refine ⟨by omega, fun e he => ?_, by omega, fun hlt => hlast (by omega)⟩
        rcases List.mem_cons.mp he with rfl | he
        · exact .inl ⟨id, rfl⟩
        · exact hmem e he
      simpa only [js.decode_readyKey, bind_assoc] using hprog

/-- A loop that removes the keys of a list, each with one event. -/
theorem forM_purges {f : Bytes → TxM Unit} {Has : Image → Bytes → Prop} {P : Event → Prop}
    (hf : ∀ key a, Has a key → Realizes (f key) a fun _ evs a' =>
      (∃ e, evs = [e] ∧ P e) ∧ ∀ key', Has a' key' ↔ Has a key' ∧ key' ≠ key) :
    ∀ (keys : List Bytes) (a : Image), keys.Nodup → (∀ key ∈ keys, Has a key) →
      Realizes (keys.forM f) a fun _ evs a' => evs.length = keys.length ∧ (∀ e ∈ evs, P e) ∧
        ∀ key, Has a' key ↔ Has a key ∧ key ∉ keys
  | [], a, _, _ => Refinement.Realizes.pure ⟨rfl, by simp, by simp⟩
  | key :: keys, a, hnodup, hall => by
    obtain ⟨hnew, hnodup⟩ := List.nodup_cons.mp hnodup
    refine Refinement.Realizes.bind (hf key a (hall key List.mem_cons_self)) ?_
    rintro - _ a' - ⟨⟨e, rfl, he⟩, hhas⟩
    have hrest : ∀ key' ∈ keys, Has a' key' := fun key' hkey' =>
      (hhas key').mpr ⟨hall key' (List.mem_cons_of_mem _ hkey'), fun heq => hnew (heq ▸ hkey')⟩
    refine (forM_purges hf keys a' hnodup hrest).mono fun _ evs a'' _ ⟨hlen, hevs, hend⟩ => ?_
    refine ⟨by simp [hlen], fun e' he' => ?_, fun key' => ?_⟩
    · rcases List.mem_cons.mp he' with rfl | he'
      · exact he
      · exact hevs e' he'
    · rw [hend, hhas, List.mem_cons, not_or, and_assoc]

/-- The timer of a scheduled job of the queue. -/
def Image.HasScheduled (queue : String) (a : Image) (key : Bytes) : Prop :=
  ∃ id js attempt deadline, a.jobs id = some js ∧ js.place = .scheduled attempt deadline ∧
    key = TimerKey.encode { deadline, jobId := id } ∧ js.content.queue = queue

/-- The key of a dead letter of the queue. -/
def Image.HasDead (queue : String) (a : Image) (key : Bytes) : Prop :=
  ∃ id js attempt failedAt cause reason, a.jobs id = some js ∧
    js.place = .dead attempt failedAt cause reason ∧ key = js.deadKey id failedAt ∧
    js.content.queue = queue

/-- The timer of a dedup record of the queue. -/
def Image.HasRecord (queue : String) (a : Image) (key : Bytes) : Prop :=
  ∃ name d, a.dedup name = some d ∧ key = dedupTimer name d.deadline ∧ name.1 = queue

section Has

variable {a : Image} {rows : Rows} {idx : Indexes} {queue : String} {key : Bytes}

theorem Represents.hasScheduled_iff (h : Represents a rows idx) :
    idx.scheduled.keys[key]? = some queue ↔ a.HasScheduled queue key := by
  constructor
  · intro hkey
    obtain ⟨id, js, attempt, deadline, hJ, hp, rfl, hqueue⟩ := h.jobs.of_scheduled_entry hkey
    exact ⟨id, js, attempt, deadline, hJ, hp, rfl, hqueue.symm⟩
  · rintro ⟨id, js, attempt, deadline, hJ, hp, rfl, rfl⟩
    exact h.jobs.get_scheduled_entry hJ hp

theorem Represents.hasDead_iff (h : Represents a rows idx) :
    idx.deadLetter.keys[key]? = some queue ↔ a.HasDead queue key := by
  constructor
  · intro hkey
    obtain ⟨id, js, attempt, failedAt, cause, reason, hJ, hp, rfl, hqueue⟩ :=
      h.jobs.of_dead_entry hkey
    exact ⟨id, js, attempt, failedAt, cause, reason, hJ, hp, rfl, hqueue.symm⟩
  · rintro ⟨id, js, attempt, failedAt, cause, reason, hJ, hp, rfl, rfl⟩
    exact h.jobs.get_dead_entry hJ hp

theorem Represents.hasRecord_iff (h : Represents a rows idx) :
    idx.dedupTimers.keys[key]? = some queue ↔ a.HasRecord queue key := by
  constructor
  · intro hkey
    obtain ⟨name, d, hd, rfl, hqueue⟩ := h.dedup.of_entry hkey
    exact ⟨name, d, hd, rfl, hqueue.symm⟩
  · rintro ⟨name, d, hd, rfl, rfl⟩
    exact h.dedup.get_entry hd

theorem purgeScheduled_realizes (key : Bytes) (a : Image) (h : a.HasScheduled queue key) :
    Realizes (purgeScheduled key) a fun _ evs a' => (∃ e, evs = [e] ∧ PurgesQueue queue e) ∧
      ∀ key', a'.HasScheduled queue key' ↔ a.HasScheduled queue key' ∧ key' ≠ key := by
  obtain ⟨id, js, attempt, deadline, hJ, hp, rfl, rfl⟩ := h
  refine Realizes.of_event fun rows idx c hrep => ?_
  have hmoved := (hrep.jobs.unplace_scheduled hJ hp).remove_job (Function.update_self ..) rfl
  have hrep' := hrep.setJob hmoved.of_two_moves (by simp) rfl rfl
  refine ⟨(), _, _, c.markDirty, _, _, ?_, Step.purge hJ (.inr ⟨deadline, hp⟩), hrep',
    .of_writes rfl rfl rfl rfl (.of_eq rfl), ⟨_, rfl, .inl ⟨id, rfl⟩⟩, fun key' => ?_⟩
  · simp only [purgeScheduled, TimerKey.jobIdOf_encode]
    rfl
  · rw [← hrep'.hasScheduled_iff, ← hrep.hasScheduled_iff, TimerIndex.keys_remove,
      ExtTreeMap.getElem?_erase_eq, and_comm]
    split_ifs with heq
    · simp [heq]
    · simp [Ne.symm heq]

theorem purgeDeadLetter_realizes (key : Bytes) (a : Image) (h : a.HasDead queue key) :
    Realizes (purgeDeadLetter key) a fun _ evs a' => (∃ e, evs = [e] ∧ PurgesQueue queue e) ∧
      ∀ key', a'.HasDead queue key' ↔ a.HasDead queue key' ∧ key' ≠ key := by
  obtain ⟨id, js, attempt, failedAt, cause, reason, hJ, hp, rfl, rfl⟩ := h
  refine Realizes.of_event fun rows idx c hrep => ?_
  have hrep' := hrep.setJob (hrep.jobs.unbury hJ hp) (by simp) rfl rfl
  refine ⟨(), _, _, c.markDirty, _, _, rfl, Step.discard hJ hp, hrep',
    .of_writes rfl rfl rfl rfl (.of_eq rfl), ⟨_, rfl, .inr (.inl ⟨id, _, _, rfl⟩)⟩, fun key' => ?_⟩
  rw [← hrep'.hasDead_iff, ← hrep.hasDead_iff, TimerIndex.keys_remove,
    ExtTreeMap.getElem?_erase_eq, and_comm]
  split_ifs with heq
  · simp [heq]
  · simp [Ne.symm heq]

theorem purgeDedup_realizes (key : Bytes) (a : Image) (h : a.HasRecord queue key) :
    Realizes (purgeDedup key) a fun _ evs a' => (∃ e, evs = [e] ∧ PurgesQueue queue e) ∧
      ∀ key', a'.HasRecord queue key' ↔ a.HasRecord queue key' ∧ key' ≠ key := by
  obtain ⟨name, d, hd, rfl, rfl⟩ := h
  refine Realizes.of_event fun rows idx c hrep => ?_
  have hrep' := hrep.withDedup (hrep.dedup.forget hd)
  refine ⟨(), _, _, c.markDirty, _, _, ?_, Step.purgeDedup hd, hrep',
    .of_writes rfl rfl rfl rfl (.of_eq rfl),
    ⟨_, rfl, .inr (.inr ⟨name, rfl, rfl⟩)⟩, fun key' => ?_⟩
  · simp only [purgeDedup, dedupTimer, DedupTimerKey.dedupKeyOf_encode]
    rfl
  · change Image.HasRecord _ { a with dedup := Function.update a.dedup name none } key' ↔ _
    rw [← hrep'.hasRecord_iff, ← hrep.hasRecord_iff, TimerIndex.keys_remove,
      ExtTreeMap.getElem?_erase_eq, and_comm]
    split_ifs with heq
    · simp [heq]
    · simp [Ne.symm heq]

/-- The loop over the keys that an index has for the queue, at most `n` of them. A loop that stops
early leaves none. -/
theorem purgePhase_realizes {f : Bytes → TxM Unit} {Has : Image → Bytes → Prop}
    (hf : ∀ key a, Has a key → Realizes (f key) a fun _ evs a' =>
      (∃ e, evs = [e] ∧ PurgesQueue queue e) ∧ ∀ key', Has a' key' ↔ Has a key' ∧ key' ≠ key)
    {timers : TimerIndex} (hhas : ∀ {key}, timers.keys[key]? = some queue ↔ Has a key) (n : ℕ) :
    Realizes ((timers.ownedKeys queue n).forM f) a fun _ evs a' =>
      evs.length = (timers.ownedKeys queue n).length ∧ (∀ e ∈ evs, PurgesQueue queue e) ∧
        evs.length ≤ n ∧ (evs.length < n → ∀ key, ¬ Has a' key) := by
  have hall : ∀ key ∈ timers.ownedKeys queue n, Has a key := fun key hkey =>
    hhas.mp (TimerIndex.getElem?_of_mem_ownedKeys hkey)
  refine (forM_purges hf _ a (TimerIndex.nodup_ownedKeys _ _ _) hall).mono
    fun _ evs a' _ ⟨hlen, hevs, hend⟩ => ⟨hlen, hevs, ?_, fun hlt key hkey => ?_⟩
  · rw [hlen]
    exact TimerIndex.length_ownedKeys_le _ _ _
  · obtain ⟨hkey, hnot⟩ := (hend key).mp hkey
    exact hnot (TimerIndex.mem_ownedKeys (hhas.mpr hkey) (hlen ▸ hlt))

end Has

/-- The jobs and records of the first state are in the second. -/
structure Image.Within (a b : Image) : Prop where
  jobs : ∀ id js, a.jobs id = some js → b.jobs id = some js
  dedup : ∀ name d, a.dedup name = some d → b.dedup name = some d

omit [Prost] in
theorem Image.Within.setJob_none (a : Image) (id : String) : (a.setJob id none).Within a where
  jobs id' js hJ := by
    rw [setJob_jobs] at hJ
    by_cases hid : id' = id
    · rw [hid, Function.update_self] at hJ
      cases hJ
    · rwa [Function.update_of_ne hid] at hJ
  dedup _ _ hd := hd

/-- A purge only removes. -/
theorem within_of_purges {a a' : Image} {evs : List Event} {queue : String}
    (h : Trace Step a evs a') (hevs : ∀ e ∈ evs, PurgesQueue queue e) : a'.Within a := by
  refine h.preserves (P := fun b => b.Within a) (fun b e b' he hstep hb => ?_)
    ⟨fun _ _ h => h, fun _ _ h => h⟩
  have htrans : b'.Within b → b'.Within a := fun h =>
    ⟨fun id js hJ => hb.jobs id js (h.jobs id js hJ),
      fun name d hd => hb.dedup name d (h.dedup name d hd)⟩
  refine htrans ?_
  rcases hevs e he with ⟨id, rfl⟩ | ⟨id, key, record, rfl⟩ | ⟨name, -, rfl⟩
  · cases hstep
    exact .setJob_none b id
  · cases hstep
    exact .setJob_none b id
  · cases hstep
    refine ⟨fun _ _ h => h, fun name' d hd => ?_⟩
    rw [Image.setDedup_dedup] at hd
    by_cases hname : name' = name
    · rw [hname, Function.update_self] at hd
      cases hd
    · rwa [Function.update_of_ne hname] at hd

/-- Some job of the queue is leased. -/
def Image.HasLease (a : Image) (queue : String) : Prop :=
  ∃ id js attempt expires, a.jobs id = some js ∧ js.place = .leased attempt expires ∧
    js.content.queue = queue

theorem Represents.hasLease_iff {a : Image} {rows : Rows} {idx : Indexes}
    (h : Represents a rows idx) (queue : String) :
    0 < idx.leases.byQueue[queue]?.getD 0 ↔ a.HasLease queue := by
  rw [h.jobs.lease.counted.getD_eq, Nat.pos_iff_ne_zero, ne_eq, Tally.count_eq_zero_iff]
  constructor
  · intro hcount
    push Not at hcount
    obtain ⟨key, owner, hkey, howner⟩ := hcount
    obtain ⟨id, js, attempt, expires, hJ, hp, -, rfl⟩ := h.jobs.of_lease_entry hkey
    exact ⟨id, js, attempt, expires, hJ, hp, Option.some.inj howner⟩
  · rintro ⟨id, js, attempt, expires, hJ, hp, rfl⟩ hcount
    exact hcount _ _ (h.jobs.get_lease_entry hJ hp) rfl

theorem applyPurgeQueueChunk_rejects {a : Image} {queue : String} (h : a.HasLease queue)
    (max : ℕ) : Rejects (applyPurgeQueueChunk queue max) a fun e => e.code = .failedPrecondition := by
  rintro ⟨rows, idx, c, _⟩ ⟨hrep, rfl⟩
  refine ⟨⟨.failedPrecondition, "queue has in-flight jobs"⟩, ?_, rfl⟩
  rw [applyPurgeQueueChunk, bind_run, getIndexes_run]
  dsimp only
  rw [if_pos ((hrep.hasLease_iff queue).mpr h)]
  rfl

/-- A job or a dedup record belongs to the queue. -/
def Image.Owns (a : Image) (queue : String) : Prop :=
  (∃ id js, a.jobs id = some js ∧ js.content.queue = queue) ∨
    ∃ (name : DedupName) (d : DedupState), a.dedup name = some d ∧ name.1 = queue

/-- What a queue owns is in one of five kinds of rows. -/
theorem Represents.owns_iff {a : Image} {rows : Rows} {idx : Indexes} (h : Represents a rows idx)
    {queue : String} (hq : FitsPrefix queue) :
    a.Owns queue ↔ ¬ a.NoReady (queuePrefix queue) ∨ a.HasLease queue ∨
      (∃ key, a.HasScheduled queue key) ∨ (∃ key, a.HasDead queue key) ∨
        ∃ key, a.HasRecord queue key := by
  constructor
  · rintro (⟨id, js, hJ, rfl⟩ | ⟨name, d, hd, rfl⟩)
    · cases hp : js.place with
      | limbo => exact absurd hp (h.settled id js hJ)
      | ready attempt =>
        exact .inl fun hno => hno id js attempt hJ hp ⟨_, rfl⟩
      | leased attempt expires => exact .inr (.inl ⟨id, js, attempt, expires, hJ, hp, rfl⟩)
      | scheduled attempt deadline =>
        exact .inr (.inr (.inl ⟨_, id, js, attempt, deadline, hJ, hp, rfl, rfl⟩))
      | dead attempt failedAt cause reason =>
        exact .inr (.inr (.inr (.inl
          ⟨_, id, js, attempt, failedAt, cause, reason, hJ, hp, rfl, rfl⟩)))
    · exact .inr (.inr (.inr (.inr ⟨_, name, d, hd, rfl, rfl⟩)))
  · rintro (hready | ⟨id, js, -, -, hJ, -, rfl⟩ | ⟨-, id, js, -, -, hJ, -, -, rfl⟩ |
      ⟨-, id, js, -, -, -, -, hJ, -, -, rfl⟩ | ⟨-, name, d, hd, -, rfl⟩)
    · unfold Image.NoReady at hready
      push Not at hready
      obtain ⟨id, js, attempt, hJ, -, hpre⟩ := hready
      exact .inl ⟨id, js, hJ, queue_eq_of_isPrefix hq hpre⟩
    · exact .inl ⟨id, js, hJ, rfl⟩
    · exact .inl ⟨id, js, hJ, rfl⟩
    · exact .inl ⟨id, js, hJ, rfl⟩
    · exact .inr ⟨name, d, hd, rfl⟩

/-- The counters see a row of the queue exactly if it owns something, leases apart. -/
theorem Represents.holdsRows_iff {a : Image} {rows : Rows} {idx : Indexes}
    (h : Represents a rows idx) {queue : String} (hq : FitsPrefix queue)
    (hlease : ¬ a.HasLease queue) : holdsRows idx queue = true ↔ a.Owns queue := by
  have htimer : ∀ {timers : TimerIndex}, timers.Counted →
      (timers.byQueue.contains queue = true ↔ ∃ key : Bytes, timers.keys[key]? = some queue) := by
    intro timers hcounted
    rw [hcounted.contains_iff]
    constructor
    · rintro ⟨key, owner, hkey, howner⟩
      exact ⟨key, hkey.trans howner⟩
    · rintro ⟨key, hkey⟩
      exact ⟨key, queue, hkey, rfl⟩
  have hready : idx.ready.byQueue.contains queue = true ↔ ¬ a.NoReady (queuePrefix queue) := by
    rw [h.jobs.ready.counted.contains_iff]
    constructor
    · rintro ⟨key, attempt, hkey, howner⟩ hno
      obtain ⟨id, js, hJ, hp, rfl⟩ := h.jobs.of_ready_entry hkey
      rw [readyOwner, JobState.readyKey, ReadyKey.readQueue_encode js.content.queue.2] at howner
      obtain rfl := Option.some.inj howner
      exact hno id js attempt hJ hp ⟨_, rfl⟩
    · intro hno
      unfold Image.NoReady at hno
      push Not at hno
      obtain ⟨id, js, attempt, hJ, hp, hpre⟩ := hno
      obtain rfl := queue_eq_of_isPrefix hq hpre
      exact ⟨_, _, h.jobs.get_ready_entry hJ hp, ReadyKey.readQueue_encode js.content.queue.2⟩
  rw [h.owns_iff hq, holdsRows]
  simp only [Bool.or_eq_true, hready, htimer h.jobs.scheduled.counted,
    htimer h.jobs.dead.counted, htimer h.dedup.counted, h.hasScheduled_iff, h.hasDead_iff,
    h.hasRecord_iff, hlease, false_or, or_assoc]

/-- A chunk removes rows of the queue, at most `max` of them, and less only if it leaves none. -/
theorem applyPurgeQueueChunk_realizes {a : Image} {queue : String} (hq : FitsPrefix queue)
    (h : ¬ a.HasLease queue) (max : ℕ) :
    Realizes (applyPurgeQueueChunk queue max) a fun r evs a' =>
      (∀ e ∈ evs, PurgesQueue queue e) ∧ r.purged = evs.length ∧ evs.length ≤ max ∧
        (evs.length < max → ¬ a'.Owns queue) ∧ (r.remaining = true ↔ a'.Owns queue) := by
  refine Realizes.bind_getIndexes fun rows idx hrep => ?_
  rw [if_neg (by rwa [hrep.hasLease_iff])]
  refine Refinement.Realizes.bind (purgeReady_realizes hq max 0 a) ?_
  rintro _ evs₁ a₁ htrace₁ ⟨rfl, h₁, hle₁, hdone₁⟩
  refine Realizes.bind_getIndexes fun rows₁ idx₁ hrep₁ => ?_
  refine Refinement.Realizes.bind
    (purgePhase_realizes purgeScheduled_realizes hrep₁.hasScheduled_iff _) ?_
  rintro - evs₂ a₂ htrace₂ ⟨hlen₂, h₂, hle₂, hdone₂⟩
  rw [← hlen₂, Nat.zero_add]
  refine Realizes.bind_getIndexes fun rows₂ idx₂ hrep₂ => ?_
  refine Refinement.Realizes.bind
    (purgePhase_realizes purgeDeadLetter_realizes hrep₂.hasDead_iff _) ?_
  rintro - evs₃ a₃ htrace₃ ⟨hlen₃, h₃, hle₃, hdone₃⟩
  rw [← hlen₃]
  refine Realizes.bind_getIndexes fun rows₃ idx₃ hrep₃ => ?_
  refine Refinement.Realizes.bind
    (purgePhase_realizes purgeDedup_realizes hrep₃.hasRecord_iff _) ?_
  rintro - evs₄ a₄ htrace₄ ⟨hlen₄, h₄, hle₄, hdone₄⟩
  rw [← hlen₄]
  refine Realizes.bind_getIndexes fun rows₄ idx₄ hrep₄ => ?_
  have hevs : ∀ e ∈ evs₁ ++ (evs₂ ++ (evs₃ ++ evs₄)), PurgesQueue queue e := by
    intro e he
    simp only [List.mem_append] at he
    rcases he with he | he | he | he
    exacts [h₁ e he, h₂ e he, h₃ e he, h₄ e he]
  have hwithin := within_of_purges (htrace₁.append (htrace₂.append (htrace₃.append htrace₄))) hevs
  have hlease : ¬ a₄.HasLease queue := by
    rintro ⟨id, js, attempt, expires, hJ, hp, hqueue⟩
    exact h ⟨id, js, attempt, expires, hwithin.jobs id js hJ, hp, hqueue⟩
  have hlength : (evs₁ ++ (evs₂ ++ (evs₃ ++ evs₄))).length =
      evs₁.length + evs₂.length + evs₃.length + evs₄.length := by
    simp only [List.length_append]
    omega
  have hdone : (evs₁ ++ (evs₂ ++ (evs₃ ++ evs₄))).length < max → ¬ a₄.Owns queue := by
    intro hlt
    rw [hlength] at hlt
    -- every phase stopped early, and what a phase has not left the later ones do not bring back
    rw [hrep₄.owns_iff hq]
    rintro (hready | hleased | ⟨key, hkey⟩ | ⟨key, hkey⟩ | ⟨key, hkey⟩)
    · have hwithin₁ := within_of_purges (htrace₂.append (htrace₃.append htrace₄)) fun e he =>
        hevs e (List.mem_append_right _ he)
      exact hready fun id js attempt hJ hp =>
        hdone₁ (by omega) id js attempt (hwithin₁.jobs id js hJ) hp
    · exact hlease hleased
    · obtain ⟨id, js, attempt, deadline, hJ, hp, hkey⟩ := hkey
      have hwithin₂ := within_of_purges (htrace₃.append htrace₄) fun e he =>
        hevs e (List.mem_append_right _ (List.mem_append_right _ he))
      exact hdone₂ (by omega) key
        ⟨id, js, attempt, deadline, hwithin₂.jobs id js hJ, hp, hkey⟩
    · obtain ⟨id, js, attempt, failedAt, cause, reason, hJ, hp, hkey⟩ := hkey
      exact hdone₃ (by omega) key ⟨id, js, attempt, failedAt, cause, reason,
        (within_of_purges htrace₄ h₄).jobs id js hJ, hp, hkey⟩
    · exact hdone₄ (by omega) key hkey
  have hpost : (∀ e ∈ evs₁ ++ (evs₂ ++ (evs₃ ++ evs₄)), PurgesQueue queue e) ∧
      evs₁.length + evs₂.length + evs₃.length + evs₄.length =
        (evs₁ ++ (evs₂ ++ (evs₃ ++ evs₄))).length ∧
      (evs₁ ++ (evs₂ ++ (evs₃ ++ evs₄))).length ≤ max ∧
      ((evs₁ ++ (evs₂ ++ (evs₃ ++ evs₄))).length < max → ¬ a₄.Owns queue) ∧
      (holdsRows idx₄ queue = true ↔ a₄.Owns queue) :=
    ⟨hevs, hlength.symm, by omega, hdone, hrep₄.holdsRows_iff hq hlease⟩
  dsimp only
  split_ifs
  · refine Refinement.Realizes.bind (onCycle_realizes fun c => ⟨rfl, rfl, .queuePurged c _⟩) ?_
    rintro - _ a' - ⟨rfl, rfl⟩
    exact Refinement.Realizes.pure (by simpa only [List.append_nil] using hpost)
  · exact Refinement.Realizes.pure (by simpa only [List.append_nil] using hpost)

end Sepp
