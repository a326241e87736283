import Sepp.Library.Window
import Sepp.Run.Contents
import Sepp.Run.Outcomes
import Sepp.Wire.Codec

/-!
# Draining the dead letters

A drain takes the oldest dead letters that match its filter, among those that it looks at: the
index is shared by all queues, and the scan stops after `scan_cap` entries, whatever they are. So
it takes the oldest matches exactly if they are within the scan; else it leaves some out, and may
answer with nothing while there are matches.

## Main definitions

* `Rows.deadKeys` — the dead letters that match, oldest first.
* `Rows.WithinScan` — those that a drain should take are within its scan.
* `Server.DrainsOldest` — what a drain should do.

## Main results

* `Server.Shows.drainsOldest_iff` — it does so exactly if they are within the scan.
* `Run.nodup_drained` — no record is drained twice.
* `Run.drains_recover`.
-/

open Std

namespace Sepp

/-! ### The loop -/

section Loop

variable [Prost] {a : Image} {rows : Rows} {idx : Indexes}

/-- The dead letter under a key. -/
def Rows.recordAt (rows : Rows) (key : Bytes) : Option DeadLetterRecord :=
  rows.deadLetter[key]?.bind Message.decode

/-- The dead letters that match the filter, oldest first. -/
def Rows.deadKeys (rows : Rows) (queue : Option String) : List Bytes :=
  rows.deadLetter.keys.filter fun key =>
    queue.all fun want => rows.queueOf .deadLetter key == some want

/-- The rows without these dead letters. -/
def Rows.dropDead (rows : Rows) (keys : List Bytes) : Rows :=
  { rows with deadLetter := keys.foldl (·.erase ·) rows.deadLetter }

/-- The indexes without these dead letters. -/
def Indexes.dropDead (idx : Indexes) (keys : List Bytes) : Indexes :=
  { idx with deadLetter := keys.foldl (fun timers key => (timers.remove key).2) idx.deadLetter }

/-- A drain of keys that hold records returns and removes them. -/
theorem mapM_drainOne_run (keys : List Bytes) (rows : Rows) (idx : Indexes) (c : Cycle)
    (hnodup : keys.Nodup) (hall : ∀ key ∈ keys, (rows.recordAt key).isSome = true) :
    keys.mapM drainOne ⟨rows, idx, c, fun _ => none⟩ =
      .ok (keys.map rows.recordAt) ⟨rows.dropDead keys, idx.dropDead keys, c, fun _ => none⟩ := by
  induction keys generalizing rows idx with
  | nil => rfl
  | cons key keys ih =>
    obtain ⟨hnew, hnodup⟩ := List.nodup_cons.mp hnodup
    have hothers : ∀ key' ∈ keys, (rows.dropDead [key]).recordAt key' = rows.recordAt key' := by
      intro key' hkey'
      have hne : key ≠ key' := fun heq => hnew (heq ▸ hkey')
      simp only [Rows.recordAt, Rows.dropDead, List.foldl_cons, List.foldl_nil,
        ExtTreeMap.getElem?_erase_eq, if_neg hne]
    have hrest := ih (rows.dropDead [key]) (idx.dropDead [key]) hnodup fun key' hkey' => by
      rw [hothers key' hkey']
      exact hall key' (List.mem_cons_of_mem _ hkey')
    obtain ⟨record, hrecord⟩ := Option.isSome_iff_exists.mp (hall key List.mem_cons_self)
    obtain ⟨value, hvalue, hdecode⟩ := Option.bind_eq_some_iff.mp hrecord
    have hfirst : drainOne key ⟨rows, idx, c, fun _ => none⟩ =
        .ok (some record) ⟨rows.dropDead [key], idx.dropDead [key], c, fun _ => none⟩ := by
      simp only [drainOne, bind_run, txGet_run, Rows.get, hvalue, hdecode, onIndexes_run,
        txRemove_run, pure_run]
      rfl
    rw [List.mapM_cons, bind_run, hfirst]
    dsimp only
    rw [bind_run, hrest, List.map_cons, hrecord, List.map_congr_left hothers]
    rfl

/-- Every dead letter can be read, and its key names its queue, as the index does. -/
theorem Represents.recordAt_isSome (h : Represents a rows idx) {key : Bytes}
    (hkey : key ∈ rows.deadLetter.keys) : (rows.recordAt key).isSome = true := by
  obtain ⟨value, hvalue⟩ := Option.isSome_iff_exists.mp
    (ExtTreeMap.mem_iff_isSome_getElem?.mp (ExtTreeMap.mem_keys.mp hkey))
  obtain ⟨id, js, attempt, failedAt, cause, reason, -, -, -, rfl⟩ := h.jobs.of_dead_row hvalue
  rw [Rows.recordAt, hvalue, Option.bind_some, Message.decode_encodeToVec]
  rfl

/-- The index has the keys of the dead letters, with their queues. -/
theorem Represents.iterOldest_deadLetter (h : Represents a rows idx) :
    idx.deadLetter.iterOldest =
      rows.deadLetter.keys.map fun key => (key, (rows.queueOf .deadLetter key).getD "") := by
  have hkeys : idx.deadLetter.keys =
      rows.deadLetter.map fun key _ => (rows.queueOf .deadLetter key).getD "" := by
    refine ExtTreeMap.ext_getElem? fun key => ?_
    rw [ExtTreeMap.getElem?_map]
    cases hget : rows.deadLetter[key]? with
    | none => exact h.jobs.dead_entry_eq_none hget
    | some value =>
      obtain ⟨id, js, attempt, failedAt, cause, reason, hJ, hp, rfl, -⟩ := h.jobs.of_dead_row hget
      have hqueue : DeadLetterKey.queueOf (js.deadKey id failedAt) = some js.content.queue.1 :=
        DeadLetterKey.queueOf_encode js.content.queue.2
      rw [h.jobs.get_dead_entry hJ hp, Option.map_some, Rows.queueOf, hqueue, Option.getD_some]
  rw [TimerIndex.iterOldest, hkeys, ExtTreeMap.toList_map,
    ← ExtTreeMap.map_fst_toList_eq_keys, List.map_map]
  rfl

/-- A drain takes the oldest matches within its scan. -/
theorem Represents.drainKeys_eq (h : Represents a rows idx) (queue : Option String)
    (max scanCap : ℕ) :
    drainKeys idx.deadLetter queue max scanCap =
      ((rows.deadLetter.keys.take scanCap).filter fun key =>
        queue.all fun want => rows.queueOf .deadLetter key == some want).take max := by
  rw [drainKeys, h.iterOldest_deadLetter, ← List.map_take, List.filter_map, ← List.map_take,
    List.map_map]
  change List.map id _ = _
  rw [List.map_id]
  congr 1
  refine List.filter_congr fun key hkey => ?_
  obtain ⟨value, hvalue⟩ := Option.isSome_iff_exists.mp
    (ExtTreeMap.mem_iff_isSome_getElem?.mp (ExtTreeMap.mem_keys.mp (List.mem_of_mem_take hkey)))
  obtain ⟨id, js, attempt, failedAt, cause, reason, -, -, rfl, -⟩ := h.jobs.of_dead_row hvalue
  have hqueue : DeadLetterKey.queueOf (js.deadKey id failedAt) = some js.content.queue.1 :=
    DeadLetterKey.queueOf_encode js.content.queue.2
  cases queue with
  | none => rfl
  | some want => simp [Rows.queueOf, hqueue, eq_comm]

/-- A drain returns and removes the oldest matches within its scan. -/
theorem applyDrain_run (h : Represents a rows idx) (queue : Option String) (max scanCap : ℕ)
    (c : Cycle) :
    ∃ records c', records.map some =
        (drainKeys idx.deadLetter queue max scanCap).map rows.recordAt ∧
      applyDrain queue max scanCap ⟨rows, idx, c, fun _ => none⟩ =
        .ok records ⟨rows.dropDead (drainKeys idx.deadLetter queue max scanCap),
          idx.dropDead (drainKeys idx.deadLetter queue max scanCap), c', fun _ => none⟩ := by
  have hmem : ∀ key ∈ drainKeys idx.deadLetter queue max scanCap, key ∈ rows.deadLetter.keys := by
    intro key hkey
    rw [h.drainKeys_eq] at hkey
    exact List.mem_of_mem_take (List.mem_of_mem_filter (List.mem_of_mem_take hkey))
  have hnodup : (drainKeys idx.deadLetter queue max scanCap).Nodup := by
    rw [h.drainKeys_eq]
    exact ExtTreeMap.nodup_keys.sublist
      ((List.take_sublist ..).trans (List.filter_sublist.trans (List.take_sublist ..)))
  have hrun := mapM_drainOne_run _ rows idx c hnodup fun key hkey => h.recordAt_isSome (hmem key hkey)
  obtain ⟨records, hrecords⟩ : ∃ records,
      ((drainKeys idx.deadLetter queue max scanCap).map rows.recordAt).reduceOption = records :=
    ⟨_, rfl⟩
  refine ⟨records, if records = [] then c else (c.deadLetterDrained records.length).markDirty, ?_,
    ?_⟩
  · rw [← hrecords, List.reduceOption, List.map_filterMap, List.filterMap_map]
    refine List.filterMap_eq_map_iff_forall_eq_some.mpr fun key hkey => ?_
    obtain ⟨record, hrecord⟩ := Option.isSome_iff_exists.mp (h.recordAt_isSome (hmem key hkey))
    simp [hrecord]
  · simp only [applyDrain, bind_run, getIndexes_run, hrun, hrecords, ite_not]
    split_ifs <;> rfl

end Loop

/-! ### One drain -/

section Drain

variable [Prost] {a : Image} {rows : Rows} {server server' : Server} {queue : Option String}
  {max scanCap : UInt64} {records : List DeadLetterRecord}

/-- The oldest dead letters that match, at most `max` of them. -/
def Rows.oldestDead (rows : Rows) (queue : Option String) (max : UInt64) : List Bytes :=
  (rows.deadKeys queue).take max.toNat

/-- The dead letters that a drain should take are among the oldest of all. -/
def Rows.WithinScan (rows : Rows) (queue : Option String) (max scanCap : UInt64) : Prop :=
  ∀ key ∈ rows.oldestDead queue max, key ∈ rows.deadLetter.keys.take scanCap.toNat

instance : Decidable (rows.WithinScan queue max scanCap) :=
  inferInstanceAs (Decidable (∀ key ∈ rows.oldestDead queue max, _))

/-- What a drain should do: it returns the oldest matches, removes these and nothing else, and
returns nothing only if nothing matches. -/
structure Server.DrainsOldest (server : Server) (queue : Option String) (max : UInt64)
    (records : List DeadLetterRecord) (server' : Server) : Prop where
  returned : records.map some = (server.rows.oldestDead queue max).map server.rows.recordAt
  rows : server'.rows = server.rows.dropDead (server.rows.oldestDead queue max)
  indexes : server'.indexes = server.indexes.dropDead (server.rows.oldestDead queue max)
  empty_iff : records = [] ↔ server.rows.deadKeys queue = []

theorem Rows.nodup_deadKeys (rows : Rows) (queue : Option String) : (rows.deadKeys queue).Nodup :=
  ExtTreeMap.nodup_keys.sublist List.filter_sublist

/-- A drain goes on behind the one before it. -/
theorem Rows.deadKeys_dropDead (rows : Rows) (queue : Option String) (n : ℕ) :
    (rows.dropDead ((rows.deadKeys queue).take n)).deadKeys queue =
      (rows.deadKeys queue).drop n := by
  rw [← List.filter_not_mem_take (rows.nodup_deadKeys queue) n]
  conv_rhs => rw [deadKeys]
  rw [List.filter_filter]
  conv_lhs => rw [deadKeys, dropDead]
  rw [ExtTreeMap.keys_foldl_erase, List.filter_filter]
  refine List.filter_congr fun key _ => ?_
  rw [Bool.and_comm]
  rfl

theorem Server.Shows.perform_drain (h : server.Shows a) (queue : Option String)
    (max scanCap : UInt64) :
    ∃ records server', server.perform (.drainDeadLetters queue max scanCap) =
      (.answered (.drainDeadLetters queue max scanCap) (.ok (.drainDeadLetters records)),
        server') := by
  have hreal : Realizes (applyOp (.drainDeadLetters queue max scanCap)) a _ :=
    Realizes.wrap OpOutcome.drainDeadLetters
      (applyDrain_realizes a queue max.toNat scanCap.toNat)
  obtain ⟨_, server', -, -, hperform, -, -, records, rfl, -⟩ := h.perform_of_realizes hreal
  exact ⟨records, server', hperform⟩

/-- A drain does what it should exactly if what it should take is within its scan. -/
theorem Server.Shows.drainsOldest_iff (h : server.Shows a) (hmax : 1 ≤ max)
    (hstep : CallStep server (.answered (.drainDeadLetters queue max scanCap)
      (.ok (.drainDeadLetters records))) server') :
    server.DrainsOldest queue max records server' ↔ server.rows.WithinScan queue max scanCap := by
  obtain ⟨cycle, tx, hok, rfl⟩ := hstep.exists_calm
  obtain ⟨records', c', hrecords, hrun⟩ := applyDrain_run h queue max.toNat scanCap.toNat cycle
  rw [applyOp, bind_run, hrun] at hok
  obtain ⟨hresult, rfl⟩ := EStateM.Result.ok.inj hok
  obtain rfl := OpOutcome.drainDeadLetters.inj hresult
  have hpos : 0 < max.toNat := hmax
  have hwithin : server.rows.WithinScan queue max scanCap ↔
      drainKeys server.indexes.deadLetter queue max.toNat scanCap.toNat =
        server.rows.oldestDead queue max := by
    rw [h.drainKeys_eq, Rows.oldestDead, Rows.deadKeys,
      List.take_filter_take_eq_iff ExtTreeMap.nodup_keys]
    rfl
  rw [hwithin]
  constructor
  · intro hdrains
    -- what should go and is not within the scan is still there
    refine hwithin.mp fun key hkey => ?_
    by_contra hnot
    have hrows := congrArg (fun rows => rows.deadLetter[key]?) hdrains.rows
    have hmem : key ∈ server.rows.deadLetter.keys :=
      List.mem_of_mem_filter (List.mem_of_mem_take hkey)
    have hkept : key ∉ drainKeys server.indexes.deadLetter queue max.toNat scanCap.toNat := by
      rw [h.drainKeys_eq]
      exact fun hin => hnot (List.mem_of_mem_filter (List.mem_of_mem_take hin))
    simp only [Rows.dropDead, ExtTreeMap.getElem?_foldl_erase, if_neg hkept, if_pos hkey] at hrows
    rw [ExtTreeMap.mem_keys, ExtTreeMap.mem_iff_isSome_getElem?, hrows] at hmem
    cases hmem
  · intro heq
    rw [heq] at hrecords ⊢
    refine ⟨hrecords, rfl, rfl, ?_⟩
    rw [← List.map_eq_nil_iff (f := some), hrecords, List.map_eq_nil_iff, Rows.oldestDead,
      List.take_eq_nil_iff]
    exact or_iff_right (by omega)

end Drain

/-! ### No record twice -/

section Once

variable [Prost] {a a' : Image} {calls : List Call} {server server' : Server}

omit [Prost] in
/-- The dead letters that a call returns. -/
def Call.drained : Call → List DeadLetterRecord
  | answered (.drainDeadLetters ..) (.ok (.drainDeadLetters records)) => records
  | _ => []

omit [Prost] in
/-- The job of a dead letter. -/
def DeadLetterRecord.jobId (record : DeadLetterRecord) : Option String := record.job.map Job.id

/-- Dead letters that are discarded were there, one for each job, and are there no more. -/
theorem discarded_of_trace {evs : List Event} (h : Trace Step a evs a')
    {records : List DeadLetterRecord} (hevs : evs.map Event.record? = records.map some) :
    (records.map DeadLetterRecord.jobId).Nodup ∧
      (∀ x ∈ records.map DeadLetterRecord.jobId,
        ∃ id, x = some id ∧ a.jobs id ≠ none ∧ a'.jobs id = none) ∧
      ∀ id, a.jobs id = none → a'.jobs id = none := by
  induction h generalizing records with
  | nil =>
    obtain rfl : records = [] := by simpa using hevs.symm
    simp
  | @cons a b a' e evs hstep _ ih =>
    cases records with
    | nil => cases hevs
    | cons record records =>
      rw [List.map_cons, List.map_cons, List.cons.injEq] at hevs
      obtain ⟨hnodup, hgone, hstays⟩ := ih hevs.2
      cases hstep with
      | @discard id js attempt failedAt cause reason hJ hp =>
        obtain rfl : js.deadLetter id attempt failedAt cause reason = record :=
          Option.some.inj hevs.1
        have hid : (js.deadLetter id attempt failedAt cause reason).jobId = some id := rfl
        have hnone : (a.setJob id none).jobs id = none := by
          rw [Image.setJob_jobs, Function.update_self]
        refine ⟨?_, ?_, fun id' hid' => hstays id' ?_⟩
        · refine List.nodup_cons.mpr ⟨fun hmem => ?_, hnodup⟩
          obtain ⟨id', heq, hsome, -⟩ := hgone _ hmem
          obtain rfl := Option.some.inj (hid.symm.trans heq)
          exact hsome hnone
        · rintro x (_ | ⟨_, hx⟩)
          · exact ⟨id, hid, by simp [hJ], hstays id hnone⟩
          · obtain ⟨id', rfl, hsome, hend⟩ := hgone x hx
            have hne : id' ≠ id := fun heq => hsome (heq ▸ hnone)
            rw [Image.setJob_jobs, Function.update_of_ne hne] at hsome
            exact ⟨id', rfl, hsome, hend⟩
        · rw [Image.setJob_jobs]
          by_cases heq : id' = id
          · rw [heq, Function.update_self]
          · rwa [Function.update_of_ne heq]
      | _ => cases hevs.1

/-- A call brings up no job that it does not enqueue. -/
theorem TurnStep.jobs_eq_none {t : Turn} {s s' : Server × Image} (h : TurnStep s t s')
    {id : String} (hid : id ∉ t.call.jobs.map PreparedJob.id) (hnone : s.2.jobs id = none) :
    s'.2.jobs id = none := by
  refine h.events.preserves (P := fun a => a.jobs id = none) (fun a e b he hstep ha => ?_) hnone
  by_contra hsome
  rcases hstep.jobs_ne_none hsome with hjob | ⟨job, now, rfl, rfl⟩
  · exact hjob ha
  · obtain ⟨op, r, hcall, hmakes⟩ := h.explained.exists_op he
    refine hid (List.mem_map_of_mem ?_)
    rw [hcall]
    exact hmakes.mem_jobs

/-- A call returns the dead letters of jobs that it finds and leaves none of. -/
theorem TurnStep.drained {t : Turn} {s s' : Server × Image} (h : TurnStep s t s') :
    (t.call.drained.map DeadLetterRecord.jobId).Nodup ∧
      ∀ x ∈ t.call.drained.map DeadLetterRecord.jobId,
        ∃ id, x = some id ∧ s.2.jobs id ≠ none ∧ s'.2.jobs id = none := by
  have hexplained := h.explained
  unfold Call.drained
  split
  · rename_i records hcall
    rw [hcall] at hexplained
    obtain ⟨hnodup, hgone, -⟩ := discarded_of_trace h.events hexplained
    exact ⟨hnodup, hgone⟩
  · exact ⟨.nil, fun x hx => by cases hx⟩

/-- No job is drained twice. -/
theorem Run.nodup_drained (h : Run calls server) :
    ((calls.flatMap Call.drained).map DeadLetterRecord.jobId).Nodup := by
  obtain ⟨turns, a, rfl, hturns, -, -⟩ := h.exists_turns
  have hend := hturns.history
    (P := fun turns s => Admissible (turns.map Turn.call) →
      (((turns.map Turn.call).flatMap Call.drained).map DeadLetterRecord.jobId).Nodup ∧
        ∀ x ∈ ((turns.map Turn.call).flatMap Call.drained).map DeadLetterRecord.jobId,
          ∃ id, x = some id ∧ s.2.jobs id = none ∧ id ∈ enqueuedIds (turns.map Turn.call))
    (fun _ => ⟨.nil, fun x hx => by cases hx⟩) (fun turns t s s' htrace ih hturn hadm => ?_)
    h.admissible
  · exact hend.1
  · rw [List.map_append, List.map_singleton] at hadm ⊢
    obtain ⟨hnodup, hgone⟩ := ih hadm.of_append
    obtain ⟨hnodup', hgone'⟩ := hturn.drained
    have hknows := knows_of_turns htrace
    have hids : enqueuedIds (turns.map Turn.call ++ [t.call]) =
        enqueuedIds (turns.map Turn.call) ++ t.call.jobs.map PreparedJob.id := by
      simp [enqueuedIds]
    have hfresh := hadm.fresh
    rw [hids] at hfresh ⊢
    rw [List.flatMap_append, List.flatMap_singleton, List.map_append]
    refine ⟨List.nodup_append'.mpr ⟨hnodup, hnodup', fun x hx hx' => ?_⟩, fun x hx => ?_⟩
    · -- a job that is gone is not there to be drained
      obtain ⟨id, rfl, hnone, -⟩ := hgone x hx
      obtain ⟨id', heq, hsome, -⟩ := hgone' _ hx'
      exact hsome (Option.some.inj heq ▸ hnone)
    · rcases List.mem_append.mp hx with hx | hx
      · obtain ⟨id, rfl, hnone, hid⟩ := hgone x hx
        refine ⟨id, rfl, hturn.jobs_eq_none (fun hnew => ?_) hnone, List.mem_append_left _ hid⟩
        exact List.disjoint_of_nodup_append hfresh hid hnew
      · obtain ⟨id, rfl, hsome, hnone⟩ := hgone' x hx
        exact ⟨id, rfl, hnone, List.mem_append_left _ (hknows id hsome)⟩

end Once

/-! ### Drain after drain -/

section Recover

variable [Prost] {a : Image} {calls : List Call} {server server' : Server} {queue : Option String}

omit [Prost] in
/-- A drain that is answered. -/
structure Drain where
  max : UInt64
  scanCap : UInt64
  records : List DeadLetterRecord

/-- A drain whose dead letters are within its scan. -/
structure ScannedDrain (queue : Option String) (server : Server) (drain : Drain)
    (server' : Server) : Prop where
  step : CallStep server (.answered (.drainDeadLetters queue drain.max drain.scanCap)
    (.ok (.drainDeadLetters drain.records))) server'
  max_pos : 1 ≤ drain.max
  within : server.rows.WithinScan queue drain.max drain.scanCap

/-- Drains take the dead letters one after the other. -/
theorem Server.Shows.records_of_drains {drains : List Drain} (h : server.Shows a)
    (htrace : Trace (ScannedDrain queue) server drains server') :
    (drains.flatMap Drain.records).map some =
        ((server.rows.deadKeys queue).take (drains.map (·.max.toNat)).sum).map
          server.rows.recordAt ∧
      server'.rows.deadKeys queue =
        (server.rows.deadKeys queue).drop (drains.map (·.max.toNat)).sum := by
  induction htrace generalizing a with
  | nil => simp
  | @cons server mid server' drain drains hdrain _ ih =>
    obtain ⟨-, b, -, hshows, -⟩ := h.drained hdrain.step
    obtain ⟨hreturned, hrows, -, -⟩ :=
      (h.drainsOldest_iff hdrain.max_pos hdrain.step).mpr hdrain.within
    obtain ⟨hrest, hleft⟩ := ih hshows
    have hkeys : mid.rows.deadKeys queue =
        (server.rows.deadKeys queue).drop drain.max.toNat := by
      rw [hrows]
      exact server.rows.deadKeys_dropDead queue _
    have hsame : ∀ key ∈ (server.rows.deadKeys queue).drop drain.max.toNat,
        mid.rows.recordAt key = server.rows.recordAt key := by
      intro key hkey
      rw [← List.filter_not_mem_take (server.rows.nodup_deadKeys queue)] at hkey
      have hnot : key ∉ server.rows.oldestDead queue drain.max := by
        simpa only [decide_eq_true_eq, Rows.oldestDead] using (List.mem_filter.mp hkey).2
      rw [hrows, Rows.recordAt, Rows.dropDead, ExtTreeMap.getElem?_foldl_erase, if_neg hnot]
      rfl
    rw [hkeys] at hrest hleft
    rw [List.flatMap_cons, List.map_append, List.map_cons, List.sum_cons, hreturned, hrest, hleft,
      List.take_add, List.map_append, List.drop_drop]
    refine ⟨?_, rfl⟩
    rw [List.map_congr_left fun key hkey => hsame key (List.mem_of_mem_take hkey)]
    rfl

omit [Prost] in
theorem length_le_sum_max {drains : List Drain} (h : ∀ drain ∈ drains, 1 ≤ drain.max) :
    drains.length ≤ (drains.map (·.max.toNat)).sum := by
  induction drains with
  | nil => exact le_rfl
  | cons drain drains ih =>
    have hpos : 1 ≤ drain.max.toNat := h drain List.mem_cons_self
    have hrest := ih fun drain hdrain => h drain (List.mem_cons_of_mem _ hdrain)
    rw [List.length_cons, List.map_cons, List.sum_cons]
    omega

/-- A drain takes the oldest matches exactly if they are within its scan. No record is drained
twice, and drains that all scan far enough recover everything. -/
theorem Run.drains_recover (h : Run calls server) :
    (∀ (queue : Option String) (max scanCap : UInt64), ∃ records server',
      server.perform (.drainDeadLetters queue max scanCap) =
        (.answered (.drainDeadLetters queue max scanCap) (.ok (.drainDeadLetters records)),
          server')) ∧
    (∀ (queue : Option String) (max scanCap : UInt64) (records : List DeadLetterRecord)
      (server' : Server), 1 ≤ max → 1 ≤ scanCap →
      CallStep server (.answered (.drainDeadLetters queue max scanCap)
        (.ok (.drainDeadLetters records))) server' →
      (server.DrainsOldest queue max records server' ↔
        server.rows.WithinScan queue max scanCap)) ∧
    ((calls.flatMap Call.drained).map DeadLetterRecord.jobId).Nodup ∧
    ∀ (queue : Option String) (drains : List Drain) (server' : Server),
      Trace (ScannedDrain queue) server drains server' →
      (server.rows.deadKeys queue).length ≤ drains.length →
        (drains.flatMap Drain.records).map some =
            (server.rows.deadKeys queue).map server.rows.recordAt ∧
          server'.rows.deadKeys queue = [] := by
  obtain ⟨a, hshows⟩ := h.exists_shows
  refine ⟨hshows.perform_drain, fun queue max scanCap records server' hmax _ hstep =>
    hshows.drainsOldest_iff hmax hstep, h.nodup_drained, fun queue drains server' htrace hlen => ?_⟩
  obtain ⟨hrecords, hleft⟩ := hshows.records_of_drains htrace
  have hsum : drains.length ≤ (drains.map (·.max.toNat)).sum := by
    refine length_le_sum_max fun drain hdrain => ?_
    obtain ⟨s, s', hstep⟩ := htrace.exists_step hdrain
    exact hstep.max_pos
  rw [List.take_of_length_le (hlen.trans hsum)] at hrecords
  rw [List.drop_of_length_le (hlen.trans hsum)] at hleft
  exact ⟨hrecords, hleft⟩

end Recover

/-- Two jobs of two queues are dead-lettered, one after the other. -/
def twoDeadLetters : List Op :=
  let job (id queue : String) : PreparedJob :=
    { id
      req := { queue, jobType := "send" }
      limits := { priority := 5, maxAttempts := 3, dedupWindowMs := 60000 } }
  let giveUp (jobId : String) (now : Int64) : Op :=
    .nack { jobId, attempt := 1, retry := some { strategy := some .deadLetter } } 0 true now
  [.enqueue [job "a" "emails", job "b" "sms"] 1000, .reserve ["emails", "sms"] 30000 2 2000,
   giveUp "a" 3000, giveUp "b" 4000]

open WireFormat Server in
/-- A scan of two finds the dead letter of the second queue, and returns it. -/
theorem drains_recover_twoDeadLetters :
    ∃ records server', (performAll twoDeadLetters {}).2.perform
        (.drainDeadLetters (some "sms") 10 2) =
          (.answered (.drainDeadLetters (some "sms") 10 2) (.ok (.drainDeadLetters records)),
            server') ∧
      (performAll twoDeadLetters {}).2.DrainsOldest (some "sms") 10 records server' ∧
      records ≠ [] := by
  have hrun : Run (performAll twoDeadLetters {}).1 (performAll twoDeadLetters {}).2 :=
    Run.of_performAll (by decide) (by decide)
  obtain ⟨hanswered, hdrains, -, -⟩ := hrun.drains_recover
  obtain ⟨records, server', hperform⟩ := hanswered (some "sms") 10 2
  have hstep := callStep_perform (performAll twoDeadLetters {}).2
    (.drainDeadLetters (some "sms") 10 2)
  rw [hperform] at hstep
  have holdest := (hdrains (some "sms") 10 2 records server' (by decide) (by decide) hstep).mpr
    (by decide +kernel)
  refine ⟨records, server', hperform, holdest, holdest.empty_iff.not.mpr ?_⟩
  decide +kernel

open WireFormat Server in
/-- A scan of one does not get past the dead letter of the first queue: the drain returns nothing,
although there is a match. -/
theorem drain_misses_twoDeadLetters :
    Run (performAll twoDeadLetters {}).1 (performAll twoDeadLetters {}).2 ∧
    ∃ server', CallStep (performAll twoDeadLetters {}).2
        (.answered (.drainDeadLetters (some "sms") 10 1) (.ok (.drainDeadLetters []))) server' ∧
      ((performAll twoDeadLetters {}).2.rows.deadKeys (some "sms")).length = 1 ∧
      ¬ (performAll twoDeadLetters {}).2.DrainsOldest (some "sms") 10 [] server' := by
  have hanswer : ((performAll twoDeadLetters {}).2.perform
      (.drainDeadLetters (some "sms") 10 1)).1 =
        .answered (.drainDeadLetters (some "sms") 10 1) (.ok (.drainDeadLetters [])) := by
    decide +kernel
  have hstep := callStep_perform (performAll twoDeadLetters {}).2
    (.drainDeadLetters (some "sms") 10 1)
  rw [hanswer] at hstep
  have hone : ((performAll twoDeadLetters {}).2.rows.deadKeys (some "sms")).length = 1 := by
    decide +kernel
  refine ⟨Run.of_performAll (by decide) (by decide), _, hstep, hone, fun hdrains => ?_⟩
  rw [hdrains.empty_iff.mp rfl] at hone
  cases hone

end Sepp
