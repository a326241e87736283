import Sepp.Admin.Drain
import Sepp.Run.Outcomes
import Sepp.Spec.Flow
import Sepp.Wire.Codec

/-!
# A closing queue only shrinks

The rows of a queue are its jobs and its dedup records, whatever keyspaces hold them. Only an
insertion adds to them, and while the tombstone of the queue is alive nothing is inserted into it:
requeues, retries and dead letters move jobs of the queue from one row to another. A chunk of a
purge removes as many rows as it may, so the loop of `drain_queue` comes to an end.

## Main definitions

* `AliveStep` — the loop and other clients, while the tombstone is alive.

## Main results

* `TurnStep.owned_le` — no call adds to a closing queue.
* `CallStep.owned_of_purge` — what a chunk removes.
* `Run.closing_queue_drains`.
-/

open Std

namespace Sepp

/-! ### One event -/

section Events

variable [Prost] {a a' : Image} {e : Event} {queue : String}

omit [Prost] in
/-- A change of one job changes what its queue owns. -/
theorem Image.owned_setJob (hfin : a.Finite) (id : String) (x : Option JobState) (queue : String) :
    (a.setJob id x).owned queue + tick (JobState.InQueue queue) id (a.jobs id) =
      a.owned queue + tick (JobState.InQueue queue) id x := by
  have hupdate := census_update (P := JobState.InQueue queue) hfin.jobs id x
  rw [owned, owned, setJob_jobs, setJob_dedup]
  omega

omit [Prost] in
theorem Image.owned_setDedup (hfin : a.Finite) (name : DedupName) (x : Option DedupState)
    (queue : String) :
    (a.setDedup name x).owned queue +
        tick (DedupState.InQueue queue) name (a.dedup name) =
          a.owned queue + tick (DedupState.InQueue queue) name x := by
  have hupdate := census_update (P := DedupState.InQueue queue) hfin.dedup name x
  rw [owned, owned, setDedup_jobs, setDedup_dedup]
  omega

omit [Prost] in
/-- A job that stays in its queue, or goes. -/
theorem Image.owned_setJob_le (hfin : a.Finite) {id : String} {js : JobState}
    (hjob : a.jobs id = some js) {x : Option JobState}
    (hx : ∀ js', x = some js' → js'.content = js.content) :
    (a.setJob id x).owned queue ≤ a.owned queue := by
  have hset := a.owned_setJob hfin id x queue
  rw [hjob] at hset
  cases x with
  | none =>
    rw [tick_none] at hset
    omega
  | some js' =>
    have hsame : tick (JobState.InQueue queue) id (some js') =
        tick (JobState.InQueue queue) id (some js) :=
      tick_congr (by rw [JobState.InQueue, JobState.InQueue, hx js' rfl])
    omega

/-- Only an insertion into the queue adds to it. -/
theorem Step.owned_le (h : Step a e a') (hfin : a.Finite)
    (hinsert : ∀ job now, e = .insert job now → job.req.queue ≠ queue) :
    a'.owned queue ≤ a.owned queue := by
  cases h with
  | @insert job now hq =>
    have hne := hinsert job now rfl
    have hset := a.owned_setJob hfin job.id (some (job.fresh hq now)) queue
    rw [tick_of_neg (P := JobState.InQueue queue) (s := job.fresh hq now) hne] at hset
    unfold Image.rememberJob
    split
    · rename_i key _
      have hdedup := Image.owned_setDedup (hfin.setJob job.id (some (job.fresh hq now)))
        (⟨job.req.queue, hq⟩, key) (some (job.record now)) queue
      rw [tick_of_neg (P := DedupState.InQueue queue) (i := (⟨job.req.queue, hq⟩, key))
        (s := job.record now) hne] at hdedup
      omega
    · omega
  | lease hjob | retry hjob | extend hjob | promote hjob | redeliver hjob | requeue hjob =>
    refine Image.owned_setJob_le hfin hjob fun js' hjs' => ?_
    cases hjs'
    rfl
  | ack hjob | discard hjob | purge hjob =>
    exact Image.owned_setJob_le hfin hjob fun js' hjs' => by cases hjs'
  | bury hjob cause hgiven reason kept =>
    refine Image.owned_setJob_le hfin hjob fun js' hjs' => ?_
    cases kept <;> cases hjs'
    rfl
  | @forget name | @purgeDedup name =>
    have hset := Image.owned_setDedup hfin name none queue
    rw [tick_none] at hset
    omega
  | hit | full | closed => exact le_rfl
  | close | reopen | lapse | append => exact le_rfl

/-- A purge of the queue removes one row with each event. -/
theorem Step.owned_of_purge (h : Step a e a') (hfin : a.Finite) (he : PurgesQueue queue e) :
    a'.owned queue + 1 = a.owned queue := by
  have hjob : ∀ {id : String} {js : JobState}, a.jobs id = some js → js.content.queue = queue →
      (a.setJob id none).owned queue + 1 = a.owned queue := by
    intro id js hJ hqueue
    have hset := a.owned_setJob hfin id none queue
    rwa [hJ, tick_of_pos (P := JobState.InQueue queue) hqueue, tick_none] at hset
  rcases he with ⟨id, rfl⟩ | ⟨id, key, record, rfl⟩ | ⟨name, hname, rfl⟩
  · cases h with
    | purge hJ => exact hjob hJ rfl
  · cases h with
    | discard hJ => exact hjob hJ rfl
  · cases h with
    | purgeDedup hd =>
      have hset := Image.owned_setDedup hfin name none queue
      rwa [hd, tick_of_pos (P := DedupState.InQueue queue) hname, tick_none] at hset

theorem owned_of_purges {evs : List Event} (h : Trace Step a evs a') (hfin : a.Finite)
    (hevs : ∀ e ∈ evs, PurgesQueue queue e) : a'.owned queue + evs.length = a.owned queue := by
  induction h with
  | nil => rfl
  | cons hstep _ ih =>
    have hrest := ih (hstep.finite hfin) fun e he => hevs e (List.mem_cons_of_mem _ he)
    have hfirst := hstep.owned_of_purge hfin (hevs _ List.mem_cons_self)
    rw [List.length_cons]
    omega

omit [Prost] in
theorem Image.owned_eq_zero_iff (hfin : a.Finite) : a.owned queue = 0 ↔ ¬ a.Owns queue := by
  rw [owned, Nat.add_eq_zero_iff, census_eq_zero_iff hfin.jobs, census_eq_zero_iff hfin.dedup,
    Owns, not_or]
  constructor
  · rintro ⟨hjobs, hdedup⟩
    refine ⟨?_, ?_⟩
    · rintro ⟨id, js, hJ, hqueue⟩
      exact hjobs id js hJ hqueue
    · rintro ⟨name, d, hd, hname⟩
      exact hdedup name d hd hname
  · rintro ⟨hjobs, hdedup⟩
    exact ⟨fun id js hJ hqueue => hjobs ⟨id, js, hJ, hqueue⟩,
      fun name d hd hname => hdedup ⟨name, d, hd, hname⟩⟩

end Events

/-! ### One call -/

section Calls

variable [Prost] {calls : List Call} {server server' : Server} {queue : String}

/-- No call adds to a queue while its tombstone is alive. -/
theorem TurnStep.owned_le {t : Turn} {s s' : Server × Image} (h : TurnStep s t s')
    (hfin : s.2.Finite) {deadline : Int64} (hclosing : s.2.closing queue = some deadline)
    (hstamp : ∀ now, t.call.stamp? = some now → now < deadline) :
    s'.2.owned queue ≤ s.2.owned queue := by
  -- an operation that inserts does nothing else, so it sees the tombstone all the way
  have hkept := h.events.preserves
    (P := fun a => a.Finite ∧ a.owned queue ≤ s.2.owned queue ∧
      ((∀ e ∈ t.events, e.closes = false) → a.closing queue = some deadline))
    (fun a e b he hstep ⟨hfin, hle, hclosing⟩ => ⟨hstep.finite hfin, ?_, fun hall => ?_⟩)
    ⟨hfin, le_rfl, fun _ => hclosing⟩
  · exact hkept.2.1
  · refine (hstep.owned_le hfin fun job now heq hqueue => ?_).trans hle
    obtain ⟨op, r, hcall, hmakes⟩ := h.explained.exists_op (heq ▸ he)
    obtain ⟨jobs, hop, -⟩ := hmakes.of_insert
    have hstamp' : now < deadline := hstamp now (by rcases hop with rfl | rfl <;> rw [hcall] <;> rfl)
    have hopen : a.closing queue = some deadline := by
      refine hclosing fun e' he' => ?_
      obtain ⟨op', r', hcall', hmakes'⟩ := h.explained.exists_op he'
      obtain ⟨rfl, -⟩ := Call.answered.inj (hcall'.symm.trans hcall)
      obtain ⟨job', -, hjob'⟩ : ∃ job' ∈ jobs, e'.AnswersJob now job' := by
        rcases hop with rfl | rfl <;> exact hmakes'
      cases e' <;> first | rfl | cases hjob'
    subst heq
    cases hstep with
    | insert hq hnew hunseen hnot => exact hnot ⟨deadline, hqueue ▸ hopen, hstamp'⟩
  · rw [hstep.closing_eq (hall e he)]
    exact hclosing hall

/-- No call adds to a closing queue. -/
theorem Run.owned_le (h : Run calls server) {deadline : Int64}
    (hclosing : server.indexes.closing[queue]? = some deadline) {call : Call}
    (hstep : CallStep server call server') (hadm : Admissible (calls ++ [call]))
    (hstamp : ∀ now, call.stamp? = some now → now < deadline) :
    server'.rows.owned queue ≤ server.rows.owned queue := by
  obtain ⟨-, a, -, -, hshows, hknows⟩ := h.exists_turns
  obtain ⟨evs, a', hturn, -⟩ := hstep.exists_turn hshows
    (hadm.wellFormed call (by simp)) (hadm.fresh_of_knows hknows)
  rw [hshows.owned_eq, hturn.shows.owned_eq]
  have hclosing' : a.closing queue = some deadline := by
    rw [← hshows.metadata.closing, hclosing]
  exact hturn.owned_le hshows.finite hclosing' hstamp

/-- A chunk removes as many rows of its queue as it may, and tells whether there are more. -/
theorem Run.owned_of_purge (h : Run calls server) {limit : UInt64} {r : PurgeOutcome}
    (hq : FitsPrefix queue)
    (hstep : CallStep server
      (.answered (.purgeQueueChunk queue limit) (.ok (.purgeQueueChunk r))) server') :
    r.purged = min limit.toNat (server.rows.owned queue) ∧
      server'.rows.owned queue + min limit.toNat (server.rows.owned queue) =
        server.rows.owned queue ∧
      (r.remaining = true ↔ 0 < server'.rows.owned queue) := by
  obtain ⟨a, hshows⟩ := h.exists_shows
  obtain ⟨evs, a', htrace, hshows', hevs, hpurged, hle, hdone, hremaining⟩ :=
    hshows.purged hq hstep
  have hcount := owned_of_purges htrace hshows.finite hevs
  rw [← Image.owned_eq_zero_iff hshows'.finite] at hdone
  rw [← not_iff_not, ← Image.owned_eq_zero_iff hshows'.finite] at hremaining
  rw [hshows.owned_eq, hshows'.owned_eq]
  refine ⟨by omega, by omega, ?_⟩
  rw [← not_iff_not, hremaining]
  omega

end Calls

/-! ### The loop -/

section Loop

variable [Prost] {calls : List Call} {server : Server} {queue : String}

/-- The loop and other clients, while the tombstone of the queue is alive. -/
structure AliveStep (queue : String) (s : Server × Draining) (label : Client × Call)
    (s' : Server × Draining) : Prop where
  step : DrainStep queue s label s'
  alive : ∃ deadline, s.1.indexes.closing[queue]? = some deadline ∧
    ∀ now, label.2.stamp? = some now → now < deadline

omit [Prost] in
/-- The chunks that it takes to purge `total` rows; the first is made in any case. -/
def chunksFor (total : ℕ) : ℕ := max 1 ((total + 999) / 1000)

omit [Prost] in
/-- Where the loop is after `k` chunks and `m` requests: it goes on only if each chunk was full and
rows are left, and it refreshes the tombstone once between two chunks. -/
def Draining.Paced (total k m owned : ℕ) : Draining → Prop
  | chunk _ => m = 2 * k ∧ owned + 1000 * k ≤ total ∧ (k = 0 ∨ 1000 * k < total)
  | refresh _ => m + 1 = 2 * k ∧ owned + 1000 * k ≤ total ∧ 1000 * k < total
  | returned _ => k ≤ chunksFor total ∧ m < 2 * chunksFor total

omit [Prost] in
/-- The loop makes no more chunks and no more requests than it may, and has returned by then. -/
theorem Draining.Paced.le {total k m owned : ℕ} {d : Draining} (h : d.Paced total k m owned) :
    (k ≤ chunksFor total ∧ (k = chunksFor total → d.Returned)) ∧
      m < 2 * chunksFor total ∧ (m + 1 = 2 * chunksFor total → d.Returned) := by
  cases d with
  | returned => exact ⟨⟨h.1, fun _ => trivial⟩, h.2, fun _ => trivial⟩
  | chunk | refresh =>
    simp only [Paced, chunksFor, Returned] at *
    omega

omit [Prost] in
/-- Rows that go keep the pace. -/
theorem Draining.Paced.mono {total k m owned owned' : ℕ} {d : Draining}
    (h : d.Paced total k m owned) (hle : owned' ≤ owned) : d.Paced total k m owned' := by
  cases d with
  | returned => exact h
  | chunk | refresh => exact ⟨h.1, by have := h.2.1; omega, h.2.2⟩

omit [Prost] in
theorem successfulChunks_append (labels : List (Client × Call)) (label : Client × Call) :
    successfulChunks (labels ++ [label]) = successfulChunks labels + successfulChunks [label] :=
  List.countP_append

omit [Prost] in
theorem loopRequests_append (labels : List (Client × Call)) (label : Client × Call) :
    loopRequests (labels ++ [label]) = loopRequests labels + loopRequests [label] :=
  List.countP_append

omit [Prost] in
theorem purgeRequest_eq (queue : String) :
    purgeRequest queue purgeChunk = .purgeQueueChunk queue 1000 := by
  rw [purgeRequest]
  congr 1

omit [Prost] in
/-- The loop may return after any of its requests. -/
theorem Draining.Paced.return {total k m owned owned' : ℕ} {d : Draining}
    (h : d.Paced total k m owned) (hd : ¬ d.Returned) {n : ℕ} (hn : n ≤ 1)
    (result : Except ApiError ℕ) : (returned result).Paced total (k + n) (m + 1) owned' := by
  cases d with
  | returned => exact absurd trivial hd
  | chunk | refresh =>
    simp only [Paced, chunksFor] at *
    omega

/-- A chunk that leaves rows was full. -/
theorem Draining.Paced.refreshed {server server' : Server} {total k m purged : ℕ} {r : PurgeOutcome}
    (h : (chunk purged).Paced total k m (server.rows.owned queue))
    (howned : server'.rows.owned queue + min 1000 (server.rows.owned queue) =
      server.rows.owned queue)
    (hleft : 0 < server'.rows.owned queue) :
    (refresh (purged + r.purged)).Paced total (k + 1) (m + 1) (server'.rows.owned queue) := by
  obtain ⟨rfl, hle, -⟩ := h
  exact ⟨by omega, by omega, by omega⟩

/-- A step of the loop, or of another client, keeps the pace. -/
theorem AliveStep.paced {s s' : Server × Draining} {label : Client × Call} {total k m : ℕ}
    (h : AliveStep queue s label s') (hrun : Run calls s.1)
    (hadm : Admissible (calls ++ [label.2]))
    (hpaced : s.2.Paced total k m (s.1.rows.owned queue)) :
    s'.2.Paced total (k + successfulChunks [label]) (m + loopRequests [label])
      (s'.1.rows.owned queue) := by
  obtain ⟨hstep, deadline, hclosing, hstamp⟩ := h
  have hone : successfulChunks [label] ≤ 1 := List.countP_le_length
  cases hstep with
  | other hcall => exact hpaced.mono (hrun.owned_le hclosing hcall hadm hstamp)
  | @loop server server' d now op result hrequest hcall =>
    cases d with
    | returned => cases hrequest
    | refresh purged =>
      obtain rfl := Option.some.inj hrequest
      have hle := hrun.owned_le hclosing hcall hadm hstamp
      cases result with
      | error status => exact hpaced.return id hone _
      | ok r =>
        cases r with
        | closeQueue =>
          obtain ⟨hm, howned, hlt⟩ := hpaced
          refine ⟨hm, ?_, .inr hlt⟩
          exact (Nat.add_le_add_right hle _).trans howned
        | _ => exact hpaced.return id hone _
    | chunk purged =>
      have hop := Option.some.inj hrequest
      rw [purgeRequest_eq] at hop
      subst hop
      cases result with
      | error status => exact hpaced.return id hone _
      | ok r =>
        cases r with
        | purgeQueueChunk r =>
          have hwf := hadm.wellFormed _ (List.mem_append_right calls (List.mem_singleton_self _))
          obtain ⟨-, howned, hremaining⟩ := hrun.owned_of_purge hwf hcall
          change Draining.Paced total (k + 1) (m + 1) _ (if r.remaining then _ else _)
          split_ifs with hmore
          · exact hpaced.refreshed howned (hremaining.mp hmore)
          · exact hpaced.return id le_rfl _
        | _ => exact hpaced.return id hone _

/-- A closing queue does not grow, a chunk shrinks it, and the loop of `drain_queue` ends: it
has returned after as many chunks as the queue needs, and after as many requests of its own,
refreshes of the tombstone included. -/
theorem Run.closing_queue_drains (h : Run calls server) :
    (∀ (queue : String) (deadline : Int64), server.indexes.closing[queue]? = some deadline →
      ∀ (call : Call) (server' : Server), CallStep server call server' →
        Admissible (calls ++ [call]) → (∀ now, call.stamp? = some now → now < deadline) →
          server'.rows.owned queue ≤ server.rows.owned queue) ∧
    (∀ (queue : String) (limit : UInt64) (r : PurgeOutcome) (server' : Server),
      CallStep server (.answered (.purgeQueueChunk queue limit) (.ok (.purgeQueueChunk r)))
        server' →
      Admissible (calls ++ [.answered (.purgeQueueChunk queue limit) (.ok (.purgeQueueChunk r))]) →
        server'.rows.owned queue + min limit.toNat (server.rows.owned queue) =
          server.rows.owned queue) ∧
    ∀ (queue : String) (labels : List (Client × Call)) (s : Server × Draining),
      Trace (AliveStep queue) (server, .chunk 0) labels s →
      Admissible (calls ++ labels.map Prod.snd) →
        (successfulChunks labels ≤ chunksFor (server.rows.owned queue) ∧
          (successfulChunks labels = chunksFor (server.rows.owned queue) → s.2.Returned)) ∧
        loopRequests labels < 2 * chunksFor (server.rows.owned queue) ∧
          (loopRequests labels + 1 = 2 * chunksFor (server.rows.owned queue) → s.2.Returned) := by
  refine ⟨fun queue deadline hclosing call server' hstep hadm hstamp =>
    h.owned_le hclosing hstep hadm hstamp, fun queue limit r server' hstep hadm => ?_,
    fun queue labels s htrace hadm => ?_⟩
  · have hwf := hadm.wellFormed _ (List.mem_append_right calls (List.mem_singleton_self _))
    exact (h.owned_of_purge hwf hstep).2.1
  · have hend := htrace.history
      (P := fun labels s => Admissible (calls ++ labels.map Prod.snd) →
        Run (calls ++ labels.map Prod.snd) s.1 ∧
          s.2.Paced (server.rows.owned queue) (successfulChunks labels) (loopRequests labels)
            (s.1.rows.owned queue))
      (fun _ => ⟨by simpa using h, rfl, le_rfl, .inl rfl⟩)
      (fun labels label s s' _ ih hstep hadm => ?_) hadm
    · exact hend.2.le
    · rw [List.map_append, List.map_singleton, ← List.append_assoc] at hadm ⊢
      obtain ⟨hrun, hpaced⟩ := ih hadm.of_append
      have hcall : CallStep s.1 label.2 s'.1 := by
        obtain ⟨hstep, -⟩ := hstep
        cases hstep with
        | loop _ hcall => exact hcall
        | other hcall => exact hcall
      rw [successfulChunks_append, loopRequests_append]
      exact ⟨⟨hrun.trace.append (.single hcall), hadm⟩, hstep.paced hrun hadm hpaced⟩

end Loop

/-- A queue that is closed with two jobs in it, one of which left a dedup record. -/
def closedQueue : List Op :=
  let job (id : String) (key : Option String) : PreparedJob :=
    { id
      req := { queue := "emails", jobType := "send", idempotencyKey := key }
      limits := { priority := 5, maxAttempts := 3, dedupWindowMs := 60000 } }
  [.enqueue [job "a" none, job "b" (some "k")] 1000, .closeQueue "emails" 2000 30000]

open WireFormat Server in
/-- One chunk is enough for its three rows, and one request. -/
theorem closing_queue_drains_closedQueue :
    (performAll closedQueue {}).2.rows.owned "emails" = 3 ∧
    ∀ (labels : List (Client × Call)) (s : Server × Draining),
      Trace (AliveStep "emails") ((performAll closedQueue {}).2, .chunk 0) labels s →
      Admissible ((performAll closedQueue {}).1 ++ labels.map Prod.snd) →
        successfulChunks labels ≤ 1 ∧ loopRequests labels ≤ 1 := by
  have howned : (performAll closedQueue {}).2.rows.owned "emails" = 3 := by decide +kernel
  refine ⟨howned, fun labels s htrace hadm => ?_⟩
  have hend := (Run.closing_queue_drains (Run.of_performAll (by decide) (by decide))).2.2
    "emails" labels s htrace hadm
  rw [howned] at hend
  exact ⟨hend.1.1, Nat.le_of_lt_succ hend.2.1⟩

open WireFormat Server in
/-- The loop makes a chunk even if there is nothing to purge. -/
theorem one_chunk_for_empty_queue :
    Run (performAll [.closeQueue "emails" 1000 30000] {}).1
        (performAll [.closeQueue "emails" 1000 30000] {}).2 ∧
      (performAll [.closeQueue "emails" 1000 30000] {}).2.rows.owned "emails" = 0 ∧
      ∃ (labels : List (Client × Call)) (s : Server × Draining), Trace (AliveStep "emails")
        ((performAll [.closeQueue "emails" 1000 30000] {}).2, .chunk 0) labels s ∧
        Admissible ((performAll [.closeQueue "emails" 1000 30000] {}).1 ++ labels.map Prod.snd) ∧
        ¬ successfulChunks labels ≤ (0 + 999) / 1000 := by
  refine ⟨Run.of_performAll (by decide) (by decide), by decide +kernel, ?_⟩
  have hadm : Admissible ((performAll [.closeQueue "emails" 1000 30000] {}).1 ++
      [((performAll [.closeQueue "emails" 1000 30000] {}).2.perform
        (.purgeQueueChunk "emails" 1000)).1]) := admissible_perform _ _ (by decide) (by decide)
  have hcall : ((performAll [.closeQueue "emails" 1000 30000] {}).2.perform
      (.purgeQueueChunk "emails" 1000)).1 = .answered (.purgeQueueChunk "emails" 1000)
        (.ok (.purgeQueueChunk ⟨0, false⟩)) := by decide +kernel
  have hclosing : (performAll [.closeQueue "emails" 1000 30000] {}).2.indexes.closing["emails"]? =
      some 31000 := by decide +kernel
  have hstep := callStep_perform (performAll [.closeQueue "emails" 1000 30000] {}).2
    (.purgeQueueChunk "emails" 1000)
  rw [hcall] at hadm hstep
  have hrequest : Draining.request "emails" 2000 (.chunk 0) =
      some (.purgeQueueChunk "emails" 1000) := congrArg some (purgeRequest_eq _)
  exact ⟨[(.loop, _)], _, .single ⟨.loop hrequest hstep, 31000, hclosing, fun now h => by cases h⟩,
    hadm, by decide⟩

end Sepp
