import Sepp.Committer.Cycle
import Sepp.Spec.Lookup

/-!
# The indexes rebuilt from the rows

The indexes of an abstract state are those that `rebuild_indexes` computes from its rows: the
owner of a scheduled key is read from the job record, that of a lease key from the inflight
record, and both are where the layout says.

## Main results

* `Represents.rebuildIndexes_eq`.
-/

open Std

namespace Sepp

/-! ### The folds of the rebuild -/

theorem keys_rebuildTimers (keyspace : Keyspace) (queueOf : Bytes → Option String) (key : Bytes)
    (queue : String) : (rebuildTimers keyspace queueOf).keys[key]? = some queue ↔
      ∃ value, keyspace[key]? = some value ∧ (queueOf key).getD "" = queue := by
  have hkeys : (rebuildTimers keyspace queueOf).keys = keyspace.toList.foldl
      (fun (m : ExtTreeMap Bytes String compare) e => m.insert e.1 ((queueOf e.1).getD "")) ∅ :=
    (List.foldl_hom TimerIndex.keys fun _ _ => rfl).symm
  rw [hkeys]
  exact ExtTreeMap.getElem?_foldl_toList keyspace (fun key _ => (queueOf key).getD "") key queue

theorem counted_rebuildTimers (keyspace : Keyspace) (queueOf : Bytes → Option String) :
    (rebuildTimers keyspace queueOf).Counted := by
  -- a key that is met twice has the same owner both times
  suffices h : ∀ (l : List (Bytes × Bytes)) (idx : TimerIndex), idx.Counted →
      (∀ key owner, idx.keys[key]? = some owner → owner = (queueOf key).getD "") →
      (l.foldl (fun idx e => idx.insert e.1 ((queueOf e.1).getD "")) idx).Counted from
    h _ {} TimerIndex.counted_empty (by simp)
  intro l
  induction l with
  | nil => exact fun idx hidx _ => hidx
  | cons e l ih =>
    intro idx hidx howner
    refine ih _ (hidx.insert fun owner => howner e.1 owner) fun key owner hkey => ?_
    have hkey' : (idx.keys.insert e.1 ((queueOf e.1).getD ""))[key]? = some owner := hkey
    rw [ExtTreeMap.getElem?_insert_eq] at hkey'
    split_ifs at hkey' with hk
    · rw [← hk, ← Option.some.inj hkey']
    · exact howner key owner hkey'

theorem keys_rebuildReady (rows : Rows) (key : Bytes) (attempt : UInt32) :
    (rebuildReady rows).keys[key]? = some attempt ↔
      ∃ value, rows.ready[key]? = some value ∧ (attemptOfRow value).getD 1 = attempt := by
  have hkeys : (rebuildReady rows).keys = rows.ready.toList.foldl
      (fun (m : ExtTreeMap Bytes UInt32 compare) e => m.insert e.1 ((attemptOfRow e.2).getD 1)) ∅ :=
    (List.foldl_hom ReadyIndex.keys fun _ _ => rfl).symm
  rw [hkeys]
  exact ExtTreeMap.getElem?_foldl_toList rows.ready (fun _ value => (attemptOfRow value).getD 1)
    key attempt

theorem counted_rebuildReady (rows : Rows) : (rebuildReady rows).Counted := by
  suffices h : ∀ (l : List (Bytes × Bytes)) (idx : ReadyIndex), idx.Counted →
      (l.foldl (fun idx e => idx.insert e.1 ((attemptOfRow e.2).getD 1)) idx).Counted from
    h _ {} ReadyIndex.counted_empty
  intro l
  induction l with
  | nil => exact fun idx hidx => hidx
  | cons e l ih => exact fun idx hidx => ih _ (hidx.insert _ _)

/-- The tombstones rebuilt from the rows that `meta` has for them. -/
theorem getElem?_rebuildClosing {rows : Rows} {closing : String → Option Int64} {n : ℕ}
    (h : Tracks metaOwner rows.metadata (metaRow closing n)) (queue : String) :
    (rebuildClosing rows)[queue]? = closing queue := by
  have hmem : ∀ {queue deadline}, (queue, deadline) ∈ (rows.metadata.toList.filter fun e =>
      closingPrefix.isPrefixOf e.1).filterMap (fun e =>
        (closingQueue e.1).map fun queue => (queue, (deadlineOfRow e.2).getD 0)) ↔
      closing queue = some deadline := by
    intro queue deadline
    simp only [List.mem_filterMap, List.mem_filter, Prod.exists, Option.map_eq_some_iff,
      ExtTreeMap.mem_toList_iff_getElem?_eq_some, Prod.mk.injEq]
    constructor
    · rintro ⟨key, value, ⟨hrow, -⟩, _, hqueue, rfl, rfl⟩
      obtain ⟨owner, howner, hmeta⟩ := h.row_of_get hrow
      rw [metaOwner, hqueue, Option.some.injEq] at howner
      rw [← howner] at hmeta
      obtain ⟨deadline, hdeadline, hentry⟩ := Option.map_eq_some_iff.mp hmeta
      rw [hdeadline, ← (Prod.mk.inj hentry).2, deadlineOfRow_i64, Option.getD_some]
    · intro hdeadline
      have hrow : rows.metadata[closingKey queue]? = some (KeyWriter.i64 deadline) :=
        h.get_of (i := some queue) (by simp [metaRow, hdeadline])
      refine ⟨closingKey queue, _, ⟨hrow, by simp [closingKey]⟩, queue,
        closingQueue_closingKey queue, rfl, ?_⟩
      rw [deadlineOfRow_i64, Option.getD_some]
  have hrebuild : rebuildClosing rows = ((rows.metadata.toList.filter fun e =>
      closingPrefix.isPrefixOf e.1).filterMap fun e =>
        (closingQueue e.1).map fun queue => (queue, (deadlineOfRow e.2).getD 0)).foldl
      (fun closing entry => closing.insert entry.1 entry.2) ∅ := by
    rw [List.foldl_filterMap]
    unfold rebuildClosing
    congr 1
    funext closing e
    obtain ⟨key, value⟩ := e
    cases hqueue : closingQueue key <;> simp only [hqueue] <;> rfl
  refine Option.ext fun deadline => ?_
  rw [hrebuild, ExtTreeMap.getElem?_foldl_insert (fun queue v w hv hw =>
    Option.some.inj ((hmem.mp hv).symm.trans (hmem.mp hw))), hmem]
  simp

/-! ### The owners that the rebuild reads -/

section Owners

variable [Prost] {J : String → Option JobState} {rows : Rows} {idx : Indexes} {id : String}
  {js : JobState}

theorem JobsRepr.scheduledQueue_eq (h : JobsRepr J rows idx) (hJ : J id = some js)
    {attempt : UInt32} {deadline : Int64} (hp : js.place = .scheduled attempt deadline) :
    scheduledQueue rows (TimerKey.encode { deadline, jobId := id }) = some js.content.queue.1 := by
  have hjobs := h.get_jobs hJ (by simp [hp, Place.IsDead])
  rw [scheduledQueue, TimerKey.jobIdOf_encode, Option.bind_some, hjobs, Option.bind_some,
    JobValue.readQueue_encode js.content.queue.2]

theorem JobsRepr.leaseQueue_eq (h : JobsRepr J rows idx) (hJ : J id = some js)
    {attempt : UInt32} {expires : Int64} (hp : js.place = .leased attempt expires) :
    leaseQueue rows (TimerKey.encode { deadline := expires, jobId := id }) =
      some js.content.queue.1 := by
  rw [leaseQueue, TimerKey.jobIdOf_encode, Option.bind_some, h.get_inflight hJ hp,
    Option.bind_some, js.decode_inflight]
  rfl

omit [Prost] in
theorem queueOf_dedupTimer (name : DedupName) (deadline : Int64) :
    DedupTimerKey.queueOf (dedupTimer name deadline) = some name.1.1 := by
  rw [dedupTimer, DedupTimerKey.queueOf, DedupTimerKey.dedupKeyOf_encode, Option.bind_some]
  exact readQueue_append _ name.1.2

end Owners

/-! ### The rebuilt indexes represent the same state -/

section Rebuild

variable [Prost] {a : Image} {rows : Rows} {idx : Indexes}

omit [Prost] in
theorem ReadyRepr.rebuild {J : String → Option JobState} {index : ReadyIndex}
    (h : ReadyRepr J rows.ready index) : ReadyRepr J rows.ready (rebuildReady rows) where
  rows := h.rows
  entries := by
    refine h.rows.derive_rowsOf (keys_rebuildReady rows) (fun id js key value _ hrow => ?_)
      fun id js key attempt hentry => ?_
    · unfold JobState.readyRow at hrow
      split at hrow
      · rename_i attempt hp
        obtain ⟨rfl, rfl⟩ := Prod.mk.inj (Option.some.inj hrow)
        simp [JobState.readyEntry, hp]
      · cases hrow
    · unfold JobState.readyEntry at hentry
      split at hentry
      · rename_i attempt' hp
        exact ⟨KeyWriter.u32 attempt', by simp_all [JobState.readyRow]⟩
      · cases hentry
  counted := counted_rebuildReady rows

theorem JobsRepr.rebuild_scheduled {J : String → Option JobState} (h : JobsRepr J rows idx) :
    ScheduledRepr J rows.scheduled (rebuildTimers rows.scheduled (scheduledQueue rows)) where
  rows := h.scheduled.rows
  entries := by
    refine h.scheduled.rows.derive_rowsOf (keys_rebuildTimers rows.scheduled (scheduledQueue rows))
      (fun id js key value hJ hrow => ?_) fun id js key queue hentry => ?_
    · unfold JobState.scheduledRow at hrow
      split at hrow
      · rename_i attempt deadline hp
        obtain ⟨rfl, rfl⟩ := Prod.mk.inj (Option.some.inj hrow)
        simp [JobState.scheduledEntry, hp, h.scheduledQueue_eq hJ hp]
      · cases hrow
    · unfold JobState.scheduledEntry at hentry
      split at hentry
      · rename_i attempt deadline hp
        exact ⟨KeyWriter.u32 attempt, by simp_all [JobState.scheduledRow]⟩
      · cases hentry
  counted := counted_rebuildTimers _ _

theorem JobsRepr.rebuild_lease {J : String → Option JobState} (h : JobsRepr J rows idx) :
    LeaseRepr J rows.inflight rows.leases (rebuildTimers rows.leases (leaseQueue rows)) where
  inflight := h.lease.inflight
  rows := h.lease.rows
  entries := by
    refine h.lease.rows.derive_rowsOf (keys_rebuildTimers rows.leases (leaseQueue rows))
      (fun id js key value hJ hrow => ?_) fun id js key queue hentry => ?_
    · unfold JobState.leaseRow at hrow
      split at hrow
      · rename_i attempt expires hp
        obtain ⟨rfl, rfl⟩ := Prod.mk.inj (Option.some.inj hrow)
        simp [JobState.leaseEntry, hp, h.leaseQueue_eq hJ hp]
      · cases hrow
    · unfold JobState.leaseEntry at hentry
      split at hentry
      · rename_i attempt expires hp
        exact ⟨[], by simp_all [JobState.leaseRow]⟩
      · cases hentry
  counted := counted_rebuildTimers _ _

theorem DeadRepr.rebuild {J : String → Option JobState} {keyspace : Keyspace} {index : TimerIndex}
    (h : DeadRepr J keyspace index) :
    DeadRepr J keyspace (rebuildTimers keyspace DeadLetterKey.queueOf) where
  rows := h.rows
  entries := by
    refine h.rows.derive_rowsOf (keys_rebuildTimers keyspace DeadLetterKey.queueOf)
      (fun id js key value _ hrow => ?_) fun id js key queue hentry => ?_
    · unfold JobState.deadRow at hrow
      split at hrow
      · rename_i attempt failedAt cause reason hp
        obtain ⟨rfl, rfl⟩ := Prod.mk.inj (Option.some.inj hrow)
        have hqueue : DeadLetterKey.queueOf (js.deadKey id failedAt) = some js.content.queue.1 :=
          DeadLetterKey.queueOf_encode js.content.queue.2
        simp [JobState.deadEntry, hp, hqueue]
      · cases hrow
    · unfold JobState.deadEntry at hentry
      split at hentry
      · rename_i attempt failedAt cause reason hp
        exact ⟨_, by simp only [JobState.deadRow, hp]; rw [(Prod.mk.inj (Option.some.inj hentry)).1]⟩
      · cases hentry
  counted := counted_rebuildTimers _ _

omit [Prost] in
theorem DedupRepr.rebuild {D : DedupName → Option DedupState} {dedup timers : Keyspace}
    {index : TimerIndex} (h : DedupRepr D dedup timers index) :
    DedupRepr D dedup timers (rebuildTimers timers DedupTimerKey.queueOf) where
  dedup := h.dedup
  timers := h.timers
  entries := by
    refine h.timers.derive_rowsOf (keys_rebuildTimers timers DedupTimerKey.queueOf)
      (fun name d key value _ hrow => ?_) fun name d key queue hentry => ?_
    · obtain ⟨rfl, rfl⟩ := Prod.mk.inj (Option.some.inj hrow)
      rw [queueOf_dedupTimer, dedupTimerEntry, Option.getD_some]
    · exact ⟨[], by rw [dedupTimerRow, (Prod.mk.inj (Option.some.inj hentry)).1]⟩
  counted := counted_rebuildTimers _ _

/-- The indexes of an abstract state are those that the rebuild computes from its rows. -/
theorem Represents.rebuildIndexes_eq (h : Represents a rows idx) : rebuildIndexes rows = idx := by
  have hrebuilt : Represents a rows (rebuildIndexes rows) :=
    { settled := h.settled
      jobs :=
        { body := h.jobs.body
          ready := h.jobs.ready.rebuild
          scheduled := h.jobs.rebuild_scheduled
          lease := h.jobs.rebuild_lease
          dead := h.jobs.dead.rebuild }
      dedup := h.dedup.rebuild
      metadata := { h.metadata with closing := getElem?_rebuildClosing h.metadata.metadata } }
  exact hrebuilt.idx_eq h

end Rebuild

end Sepp
