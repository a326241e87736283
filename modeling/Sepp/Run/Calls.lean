import Sepp.Refine.Apply
import Sepp.Refine.Oblivious
import Sepp.Refine.Rebuild

/-!
# Runs of operations

A run is a sequence of calls of `apply_op`, each with the answer that its caller gets, with
restarts in between. Reads may fail in any call; a call that ends with an internal error is undone
and the indexes are rebuilt. A restart rebuilds the indexes.

Every run is a run of the abstract system: each call makes events that its answer explains, or it
makes none and leaves the store as it was.

## Main definitions

* `Call`, `CallStep` — a call, and what it does to the store.
* `Run` — the runs that the callers of the storage layer can make.
* `Turn`, `TurnStep` — a call with its events.

## Main results

* `CallStep.exists_turn` — a call makes events or changes nothing.
* `Run.exists_turns` — a run, with the events of every call.
-/

namespace Sepp

/-! ### Calls -/

/-- A call of `apply_op` with its answer, or a restart of the server. -/
inductive Call where
  | answered (op : Op) (result : Except Status OpOutcome)
  | restart
deriving DecidableEq

namespace Call

/-- The jobs that the call asks to enqueue. -/
def jobs : Call → List PreparedJob
  | answered op _ => op.jobs
  | restart => []

/-- What the callers promise about a call. -/
def WellFormed : Call → Prop
  | answered op _ => op.WellFormed
  | restart => True

instance : DecidablePred Call.WellFormed := fun call =>
  match call with
  | answered op _ => inferInstanceAs (Decidable op.WellFormed)
  | restart => isTrue trivial

/-- The stamp of the operation, if it has one. -/
def stamp? : Call → Option Int64
  | answered op _ => op.nowMs?
  | restart => none

/-- The events behind the answer of a call. -/
def Explained : Call → List Event → Prop
  | answered op (.ok r), evs => Explains op r evs
  | answered _ (.error _), evs => evs = []
  | restart, evs => evs = []

/-- An event behind an answer is one that the operation may make. -/
theorem Explained.exists_op {call : Call} {evs : List Event} (h : call.Explained evs) {e : Event}
    (he : e ∈ evs) : ∃ op r, call = answered op (.ok r) ∧ op.Makes e := by
  unfold Explained at h
  split at h
  · exact ⟨_, _, rfl, Explains.makes h he⟩
  all_goals
    rw [h] at he
    cases he

end Call

section Step

variable [Prost]

/-- What a call does to the store. The record of the cycle and the reads that fail are arbitrary;
an internal error drops the transaction. -/
inductive CallStep : Server → Call → Server → Prop
  | done {server : Server} {op : Op} {r : OpOutcome} {tx : TxState} (cycle : Cycle)
      (faults : ℕ → Option String)
      (hrun : applyOp op ⟨server.rows, server.indexes, cycle, faults⟩ = .ok r tx) :
      CallStep server (.answered op (.ok r)) ⟨tx.rows, tx.indexes⟩
  | rejected {server : Server} {op : Op} {e : Status} {tx : TxState} (cycle : Cycle)
      (faults : ℕ → Option String)
      (hrun : applyOp op ⟨server.rows, server.indexes, cycle, faults⟩ = .error e tx)
      (hcode : e.code ≠ .internal) : CallStep server (.answered op (.error e)) ⟨tx.rows, tx.indexes⟩
  | failed {server : Server} {op : Op} {e : Status} {tx : TxState} (cycle : Cycle)
      (faults : ℕ → Option String)
      (hrun : applyOp op ⟨server.rows, server.indexes, cycle, faults⟩ = .error e tx)
      (hcode : e.code = .internal) : CallStep server (.answered op (.error e)) server.rolledBack
  | restart (server : Server) : CallStep server .restart server.rolledBack

omit [Prost] in
/-- The ids of the jobs that the calls ask to enqueue. -/
def enqueuedIds (calls : List Call) : List String :=
  (calls.flatMap Call.jobs).map PreparedJob.id

omit [Prost] in
/-- The stamps of the calls, in order. -/
def stampsOf (calls : List Call) : List Int64 := calls.filterMap Call.stamp?

omit [Prost] in
/-- The callers keep their promises, and job ids are never reused. -/
structure Admissible (calls : List Call) : Prop where
  wellFormed : ∀ call ∈ calls, call.WellFormed
  fresh : (enqueuedIds calls).Nodup

/-- A run from the empty store. -/
structure Run (calls : List Call) (server : Server) : Prop where
  trace : Trace CallStep {} calls server
  admissible : Admissible calls

end Step

/-! ### The events of a call -/

section Turns

variable [Prost] {a : Image} {server server' : Server}

/-- The store stands for the abstract state. -/
abbrev Server.Shows (server : Server) (a : Image) : Prop :=
  Represents a server.rows server.indexes

theorem Server.Shows.rolledBack_eq (h : server.Shows a) : server.rolledBack = server := by
  rw [Server.rolledBack, h.rebuildIndexes_eq]

/-- What an operation does, whatever the cycle and the reads that fail: it makes events, it is
refused, or it ends with an internal error. -/
theorem Server.Shows.applyOp_cases (h : server.Shows a) {op : Op} (hwf : op.WellFormed)
    (hfresh : a.Fresh op.jobs) (cycle : Cycle) (faults : ℕ → Option String) :
    (∃ r tx evs a', applyOp op ⟨server.rows, server.indexes, cycle, faults⟩ = .ok r tx ∧
      Trace Step a evs a' ∧ Represents a' tx.rows tx.indexes ∧ Recorded evs cycle tx.cycle ∧
      Explains op r evs) ∨
    (∃ e faults', applyOp op ⟨server.rows, server.indexes, cycle, faults⟩ =
      .error e ⟨server.rows, server.indexes, cycle, faults'⟩ ∧ e.code ≠ .internal) ∨
    ∃ e tx, applyOp op ⟨server.rows, server.indexes, cycle, faults⟩ = .error e tx ∧
      e.code = .internal := by
  obtain ⟨n, hn⟩ :=
    (oblivious_applyOp op).faults ⟨server.rows, server.indexes, cycle, fun _ => none⟩
  rcases undisturbed_or_first faults n with hall | ⟨i, e, hi, hbefore, he⟩
  swap
  · obtain ⟨tx, htx⟩ := (hn faults).2 i e hi hbefore he
    exact .inr (.inr ⟨stgErr e, tx, htx, rfl⟩)
  have hrun := (hn faults).1 hall
  rcases applyOp_refines op hwf hfresh with hok | hno | ⟨-, -, hfull⟩
  · obtain ⟨r, rows, idx, c, evs, a', hx, htrace, hrep, hrec, hexp⟩ :=
      realizes_iff.mp hok server.rows server.indexes cycle h
    refine .inl ⟨r, ⟨rows, idx, c, fun i => faults (i + n)⟩, evs, a', ?_, htrace, hrep, hrec, hexp⟩
    exact hrun.trans (congrArg (withFaults _) hx)
  · obtain ⟨e, hx, he⟩ := hno ⟨_, _, cycle, fun _ => none⟩ ⟨h, rfl⟩
    exact .inr (.inl ⟨e, fun i => faults (i + n), hrun.trans (congrArg (withFaults _) hx), he⟩)
  · obtain ⟨e, hx, he⟩ := hfull ⟨_, _, cycle, fun _ => none⟩ ⟨h, rfl⟩
    exact .inr (.inr ⟨e, _, hrun.trans (congrArg (withFaults _) hx), he⟩)

/-- What an answered call does is what the operation does when no read fails. -/
theorem CallStep.exists_calm {op : Op} {r : OpOutcome}
    (hstep : CallStep server (.answered op (.ok r)) server') :
    ∃ cycle tx, applyOp op ⟨server.rows, server.indexes, cycle, fun _ => none⟩ = .ok r tx ∧
      server' = ⟨tx.rows, tx.indexes⟩ := by
  cases hstep with
  | done cycle faults hok =>
    obtain ⟨n, hn⟩ :=
      (oblivious_applyOp op).faults ⟨server.rows, server.indexes, cycle, fun _ => none⟩
    rcases undisturbed_or_first faults n with hall | ⟨i, e, hi, hbefore, he⟩
    · have hrun := hok.symm.trans ((hn faults).1 hall)
      cases hx : applyOp op ⟨server.rows, server.indexes, cycle, fun _ => none⟩ with
      | error e tx =>
        cases hrun.trans (congrArg (withFaults _) hx)
      | ok r' tx =>
        cases hrun.trans (congrArg (withFaults _) hx)
        exact ⟨cycle, tx, hx, rfl⟩
    · obtain ⟨tx, htx⟩ := (hn faults).2 i e hi hbefore he
      cases hok.symm.trans htx

/-- What an operation makes of every state that stands for `a`, an answered call makes of the
store. -/
theorem Server.Shows.callStep_of_realizes (h : server.Shows a) {op : Op}
    {Q : OpOutcome → List Event → Image → Prop} (hreal : Realizes (applyOp op) a Q) {r : OpOutcome}
    (hstep : CallStep server (.answered op (.ok r)) server') :
    ∃ evs a', Trace Step a evs a' ∧ server'.Shows a' ∧ Q r evs a' := by
  obtain ⟨cycle, tx, hok, rfl⟩ := hstep.exists_calm
  obtain ⟨r', rows, idx, c, evs, a', hx, htrace, hrep, -, hQ⟩ :=
    realizes_iff.mp hreal server.rows server.indexes cycle h
  cases hok.symm.trans hx
  exact ⟨evs, a', htrace, hrep, hQ⟩

/-- What is done without failing reads is refused only when a read fails, and the store stays as it
is. -/
theorem Server.Shows.callStep_error_of_realizes (h : server.Shows a) {op : Op}
    {Q : OpOutcome → List Event → Image → Prop} (hreal : Realizes (applyOp op) a Q) {e : Status}
    (hstep : CallStep server (.answered op (.error e)) server') :
    server' = server ∧ e.code = .internal := by
  cases hstep with
  | rejected cycle faults herr hcode =>
    obtain ⟨n, hn⟩ :=
      (oblivious_applyOp op).faults ⟨server.rows, server.indexes, cycle, fun _ => none⟩
    rcases undisturbed_or_first faults n with hall | ⟨i, e, hi, hbefore, he⟩
    · obtain ⟨r, rows, idx, c, evs, a', hx, -⟩ :=
        realizes_iff.mp hreal server.rows server.indexes cycle h
      have hrun := ((hn faults).1 hall).trans (congrArg (withFaults _) hx)
      cases herr.symm.trans hrun
    · obtain ⟨tx, htx⟩ := (hn faults).2 i e hi hbefore he
      cases herr.symm.trans htx
      exact absurd rfl hcode
  | failed cycle faults herr hcode => exact ⟨h.rolledBack_eq, hcode⟩

/-- What is refused without failing reads is refused, or ends with an internal error, whatever the
cycle and the reads that fail; either way the store stays as it is. -/
theorem Server.Shows.callStep_of_rejects (h : server.Shows a) {op : Op} {P : Status → Prop}
    (hrejects : Rejects (applyOp op) a P) {result : Except Status OpOutcome}
    (hstep : CallStep server (.answered op result) server') :
    server' = server ∧ ∃ e, result = .error e ∧ (P e ∨ e.code = .internal) := by
  have hrun : ∀ cycle faults, ∃ e tx,
      applyOp op ⟨server.rows, server.indexes, cycle, faults⟩ = .error e tx ∧
        (P e ∧ tx.rows = server.rows ∧ tx.indexes = server.indexes ∨ e.code = .internal) := by
    intro cycle faults
    obtain ⟨n, hn⟩ :=
      (oblivious_applyOp op).faults ⟨server.rows, server.indexes, cycle, fun _ => none⟩
    rcases undisturbed_or_first faults n with hall | ⟨i, e, hi, hbefore, he⟩
    · obtain ⟨e, hx, he⟩ := hrejects ⟨_, _, cycle, fun _ => none⟩ ⟨h, rfl⟩
      exact ⟨e, _, ((hn faults).1 hall).trans (congrArg (withFaults _) hx), .inl ⟨he, rfl, rfl⟩⟩
    · obtain ⟨tx, htx⟩ := (hn faults).2 i e hi hbefore he
      exact ⟨_, tx, htx, .inr rfl⟩
  cases hstep with
  | done cycle faults hok =>
    obtain ⟨e, tx, hx, -⟩ := hrun cycle faults
    cases hok.symm.trans hx
  | rejected cycle faults herr hcode =>
    obtain ⟨e', tx', hx, hcases⟩ := hrun cycle faults
    cases herr.symm.trans hx
    obtain ⟨hP, hrows, hidx⟩ := hcases.resolve_right hcode
    exact ⟨by rw [hrows, hidx], _, rfl, .inl hP⟩
  | failed cycle faults herr hcode => exact ⟨h.rolledBack_eq, _, rfl, .inr hcode⟩

/-- A call with the events it made. -/
structure Turn where
  call : Call
  events : List Event

/-- The call takes the store from one state to the next, and its events the abstract state. -/
structure TurnStep (s : Server × Image) (t : Turn) (s' : Server × Image) : Prop where
  call : CallStep s.1 t.call s'.1
  events : Trace Step s.2 t.events s'.2
  shows : s'.1.Shows s'.2
  explained : t.call.Explained t.events

/-- The events of turns, one after the other. -/
theorem events_of_turns {turns : List Turn} {s s' : Server × Image}
    (h : Trace TurnStep s turns s') : Trace Step s.2 (turns.flatMap Turn.events) s'.2 := by
  induction h with
  | nil => exact Trace.nil _
  | cons hturn _ ih => exact hturn.events.append ih

/-- Every answer of a run is explained by the events of its turn. -/
theorem explained_of_turns {turns : List Turn} {s s' : Server × Image}
    (h : Trace TurnStep s turns s') :
    ∀ t ∈ turns, t.call.Explained t.events := by
  induction h with
  | nil => exact fun t ht => absurd ht List.not_mem_nil
  | cons hturn _ ih =>
    intro t ht
    rcases List.mem_cons.mp ht with rfl | ht
    · exact hturn.explained
    · exact ih t ht

/-- A call makes events that its answer explains; without an answer it changes nothing. -/
theorem CallStep.exists_turn {call : Call} (hstep : CallStep server call server')
    (h : server.Shows a) (hwf : call.WellFormed) (hfresh : a.Fresh call.jobs) :
    ∃ evs a', TurnStep (server, a) ⟨call, evs⟩ (server', a') ∧ (evs = [] → server' = server) := by
  have hsame : CallStep server call server → call.Explained [] →
      ∃ evs a', TurnStep (server, a) ⟨call, evs⟩ (server, a') ∧ (evs = [] → server = server) :=
    fun hstep hexp => ⟨[], a, ⟨hstep, Trace.nil a, h, hexp⟩, fun _ => rfl⟩
  cases hstep with
  | restart =>
    have hback := h.rolledBack_eq
    have hstep := CallStep.restart server
    rw [hback] at hstep ⊢
    exact hsame hstep rfl
  | failed cycle faults hrun hcode =>
    have hback := h.rolledBack_eq
    have hstep := CallStep.failed cycle faults hrun hcode
    rw [hback] at hstep ⊢
    exact hsame hstep rfl
  | done cycle faults hrun =>
    rcases h.applyOp_cases hwf hfresh cycle faults with
      ⟨r, tx, evs, a', hx, htrace, hrep, -, hexp⟩ | ⟨e, f, hx, -⟩ | ⟨e, tx, hx, -⟩ <;>
      rw [hrun] at hx <;> cases hx
    refine ⟨evs, a', ⟨.done cycle faults hrun, htrace, hrep, hexp⟩, fun hnil => ?_⟩
    rw [hnil] at htrace
    cases htrace
    rw [hrep.rows_eq h, hrep.idx_eq h]
  | rejected cycle faults hrun hcode =>
    rcases h.applyOp_cases hwf hfresh cycle faults with
      ⟨r, tx, evs, a', hx, -⟩ | ⟨e, f, hx, -⟩ | ⟨e, tx, hx, he⟩ <;>
      rw [hrun] at hx <;> cases hx
    · exact hsame (.rejected cycle faults hrun hcode) rfl
    · exact absurd he hcode

/-- Every job that the store knows is one of `ids`. -/
def Image.Knows (a : Image) (ids : List String) : Prop := ∀ id, a.jobs id ≠ none → id ∈ ids

omit [Prost] in
/-- Jobs with new ids are fresh. -/
theorem Image.Knows.fresh {ids : List String} {jobs : List PreparedJob} (h : a.Knows ids)
    (hnodup : (ids ++ jobs.map PreparedJob.id).Nodup) : a.Fresh jobs := by
  obtain ⟨-, hjobs, hdisjoint⟩ := List.nodup_append.mp hnodup
  refine ⟨hjobs, fun job hjob => ?_⟩
  by_contra hknown
  exact hdisjoint _ (h _ hknown) _ (List.mem_map_of_mem hjob) rfl

/-- After a call the store knows the jobs it knew, and those that the call asked to enqueue. -/
theorem TurnStep.knows {t : Turn} {s s' : Server × Image} {ids : List String}
    (h : TurnStep s t s') (hknows : s.2.Knows ids) :
    s'.2.Knows (ids ++ t.call.jobs.map PreparedJob.id) := by
  refine h.events.preserves (P := fun a => a.Knows (ids ++ t.call.jobs.map PreparedJob.id))
    (fun a e b he hstep ha id hid => ?_) fun id hid => List.mem_append_left _ (hknows id hid)
  rcases hstep.jobs_ne_none hid with hid | ⟨job, now, rfl, rfl⟩
  · exact ha id hid
  · obtain ⟨op, r, hcall, hmakes⟩ := h.explained.exists_op he
    refine List.mem_append_right _ (List.mem_map_of_mem ?_)
    rw [hcall]
    exact hmakes.mem_jobs

/-- A run knows no jobs but those its calls asked to enqueue. -/
theorem knows_of_turns {turns : List Turn} {s : Server × Image}
    (h : Trace TurnStep ({}, Image.empty) turns s) :
    s.2.Knows (enqueuedIds (turns.map Turn.call)) := by
  refine Trace.history (P := fun turns s => s.2.Knows (enqueuedIds (turns.map Turn.call)))
    (fun _ hid => absurd rfl hid) (fun turns t s s' _ ih hturn => ?_) h
  have hknows := hturn.knows ih
  rwa [enqueuedIds, List.map_append, List.flatMap_append, List.map_append, List.map_singleton,
    List.flatMap_singleton]

/-- Calls from a known state, with their events. -/
theorem exists_turns {calls : List Call} (h : Trace CallStep server calls server')
    (hshows : server.Shows a) {ids : List String} (hknows : a.Knows ids)
    (hwf : ∀ call ∈ calls, call.WellFormed) (hfresh : (ids ++ enqueuedIds calls).Nodup) :
    ∃ turns a', turns.map Turn.call = calls ∧ Trace TurnStep (server, a) turns (server', a') ∧
      server'.Shows a' ∧ a'.Knows (ids ++ enqueuedIds calls) := by
  induction h generalizing a ids with
  | nil => exact ⟨[], a, rfl, Trace.nil _, hshows, by simpa [enqueuedIds] using hknows⟩
  | @cons server mid server' call calls hstep _ ih =>
    have hids : ids ++ enqueuedIds (call :: calls) =
        (ids ++ call.jobs.map PreparedJob.id) ++ enqueuedIds calls := by
      simp [enqueuedIds]
    rw [hids] at hfresh ⊢
    have hnew : a.Fresh call.jobs := hknows.fresh (List.nodup_append.mp hfresh).1
    obtain ⟨evs, b, hturn, -⟩ := hstep.exists_turn hshows (hwf call List.mem_cons_self) hnew
    obtain ⟨turns, a', hmap, htrace, hend⟩ := ih hturn.shows (hturn.knows hknows)
      (fun call' hcall' => hwf call' (List.mem_cons_of_mem _ hcall')) hfresh
    exact ⟨⟨call, evs⟩ :: turns, a', by rw [List.map_cons, hmap], .cons hturn htrace, hend⟩

theorem Server.shows_empty : Server.Shows {} Image.empty := Represents.empty

/-- A run, with the events of every call. -/
theorem Run.exists_turns {calls : List Call} (h : Run calls server) :
    ∃ turns a, turns.map Turn.call = calls ∧
      Trace TurnStep ({}, Image.empty) turns (server, a) ∧ server.Shows a ∧
      a.Knows (enqueuedIds calls) := by
  have hknows : Image.empty.Knows [] := fun _ hid => absurd rfl hid
  exact Sepp.exists_turns h.trace Server.shows_empty hknows h.admissible.wellFormed
    h.admissible.fresh

omit [Prost] in
/-- What a run may be followed by. -/
theorem Admissible.fresh_of_knows {calls : List Call} {call : Call}
    (h : Admissible (calls ++ [call])) (hknows : a.Knows (enqueuedIds calls)) :
    a.Fresh call.jobs := by
  refine hknows.fresh ?_
  have hfresh := h.fresh
  rwa [enqueuedIds, List.flatMap_append, List.map_append, List.flatMap_singleton] at hfresh

omit [Prost] in
theorem Admissible.of_append {calls later : List Call} (h : Admissible (calls ++ later)) :
    Admissible calls where
  wellFormed call' hmem := h.wellFormed call' (List.mem_append_left _ hmem)
  fresh := by
    have hfresh := h.fresh
    rw [enqueuedIds, List.flatMap_append, List.map_append] at hfresh
    exact (List.nodup_append.mp hfresh).1

/-- A run that goes on, with the events of every call. -/
theorem Run.exists_later_turns {calls later : List Call} (h : Run calls server)
    (hlater : Trace CallStep server later server') (hadm : Admissible (calls ++ later)) :
    ∃ turns a turns' a', turns.map Turn.call = calls ∧ turns'.map Turn.call = later ∧
      Trace TurnStep ({}, Image.empty) turns (server, a) ∧ server.Shows a ∧
      Trace TurnStep (server, a) turns' (server', a') ∧ server'.Shows a' := by
  obtain ⟨turns, a, hcalls, hturns, hshows, hknows⟩ := h.exists_turns
  have hfresh := hadm.fresh
  rw [enqueuedIds, List.flatMap_append, List.map_append] at hfresh
  obtain ⟨turns', a', hcalls', hturns', hshows', -⟩ := Sepp.exists_turns hlater hshows hknows
    (fun call hcall => hadm.wellFormed call (List.mem_append_right _ hcall)) hfresh
  exact ⟨turns, a, turns', a', hcalls, hcalls', hturns, hshows, hturns', hshows'⟩

theorem Run.exists_shows {calls : List Call} (h : Run calls server) : ∃ a, server.Shows a := by
  obtain ⟨-, a, -, -, hshows, -⟩ := h.exists_turns
  exact ⟨a, hshows⟩

end Turns

/-! ### Calls without failing reads -/

section Perform

variable [Prost]

/-- The answer of an operation when no read fails, and the store after it. -/
def Server.perform (server : Server) (op : Op) : Call × Server :=
  match applyOp op ⟨server.rows, server.indexes, {}, fun _ => none⟩ with
  | .ok r tx => (.answered op (.ok r), ⟨tx.rows, tx.indexes⟩)
  | .error e tx => (.answered op (.error e),
      if e.code = .internal then server.rolledBack else ⟨tx.rows, tx.indexes⟩)

/-- Operations one after the other. -/
def Server.performAll : List Op → Server → List Call × Server
  | [], server => ([], server)
  | op :: ops, server =>
    let (call, server) := server.perform op
    let (calls, server) := Server.performAll ops server
    (call :: calls, server)

theorem Server.performAll_cons (op : Op) (ops : List Op) (server : Server) :
    (Server.performAll (op :: ops) server).1 =
      (server.perform op).1 :: (Server.performAll ops (server.perform op).2).1 := rfl

/-- Operations in two parts. -/
theorem Server.performAll_append (ops ops' : List Op) (server : Server) :
    Server.performAll (ops ++ ops') server =
      ((Server.performAll ops server).1 ++ (Server.performAll ops' (Server.performAll ops server).2).1,
        (Server.performAll ops' (Server.performAll ops server).2).2) := by
  induction ops generalizing server with
  | nil => rfl
  | cons op ops ih =>
    simp only [List.cons_append, Server.performAll, ih]

theorem Server.callStep_perform (server : Server) (op : Op) :
    CallStep server (server.perform op).1 (server.perform op).2 := by
  unfold perform
  split
  · exact .done _ _ (by assumption)
  · rename_i e tx hrun
    split_ifs with hcode
    · exact .failed _ _ hrun hcode
    · exact .rejected _ _ hrun hcode

/-- What an operation makes of the states that stand for `a`, it makes of the store when no read
fails. -/
theorem Server.Shows.perform_of_realizes {server : Server} {a : Image} (h : server.Shows a)
    {op : Op} {Q : OpOutcome → List Event → Image → Prop} (hreal : Realizes (applyOp op) a Q) :
    ∃ r server' evs a', server.perform op = (.answered op (.ok r), server') ∧
      Trace Step a evs a' ∧ server'.Shows a' ∧ Q r evs a' := by
  obtain ⟨r, rows, idx, c, evs, a', hx, htrace, hrep, -, hQ⟩ :=
    realizes_iff.mp hreal server.rows server.indexes {} h
  refine ⟨r, ⟨rows, idx⟩, evs, a', ?_, htrace, hrep, hQ⟩
  rw [Server.perform, hx]

/-- What is refused is refused when no read fails. -/
theorem Server.Shows.perform_of_rejects {server : Server} {a : Image} (h : server.Shows a) {op : Op}
    {P : Status → Prop} (hrejects : Rejects (applyOp op) a P) (hP : ∀ e, P e → e.code ≠ .internal) :
    ∃ e, server.perform op = (.answered op (.error e), server) ∧ P e := by
  obtain ⟨e, hx, he⟩ := hrejects ⟨server.rows, server.indexes, {}, fun _ => none⟩ ⟨h, rfl⟩
  refine ⟨e, ?_, he⟩
  rw [Server.perform, hx]
  exact congrArg _ (if_neg (hP e he))

theorem Server.trace_performAll : ∀ (ops : List Op) (server : Server),
    Trace CallStep server (Server.performAll ops server).1 (Server.performAll ops server).2
  | [], server => Trace.nil server
  | op :: ops, server => .cons (server.callStep_perform op) (trace_performAll ops _)

/-- The operation of a call. -/
theorem Server.exists_result (server : Server) (op : Op) :
    ∃ result, (server.perform op).1 = .answered op result := by
  unfold perform
  split <;> exact ⟨_, rfl⟩

theorem Server.wellFormed_performAll : ∀ (ops : List Op) (server : Server),
    (∀ op ∈ ops, op.WellFormed) → ∀ call ∈ (Server.performAll ops server).1, call.WellFormed
  | [], _, _ => by simp [Server.performAll]
  | op :: ops, server, h => by
    obtain ⟨result, hcall⟩ := server.exists_result op
    intro call hmem
    rcases List.mem_cons.mp hmem with heq | hmem
    · rw [heq.trans hcall]
      exact h op List.mem_cons_self
    · exact wellFormed_performAll ops _ (fun op' hop' => h op' (List.mem_cons_of_mem _ hop'))
        call hmem

theorem Server.enqueuedIds_performAll : ∀ (ops : List Op) (server : Server),
    enqueuedIds (Server.performAll ops server).1 = (ops.flatMap Op.jobs).map PreparedJob.id
  | [], _ => rfl
  | op :: ops, server => by
    obtain ⟨result, hcall⟩ := server.exists_result op
    have hrest := enqueuedIds_performAll ops (server.perform op).2
    rw [enqueuedIds] at hrest ⊢
    simp only [Server.performAll, hcall, List.flatMap_cons, List.map_append, hrest]
    rfl

/-- Operations from the empty store are a run. -/
theorem Run.of_performAll {ops : List Op} (hwf : ∀ op ∈ ops, op.WellFormed)
    (hfresh : ((ops.flatMap Op.jobs).map PreparedJob.id).Nodup) :
    Run (Server.performAll ops {}).1 (Server.performAll ops {}).2 where
  trace := Server.trace_performAll ops {}
  admissible :=
    { wellFormed := Server.wellFormed_performAll ops {} hwf
      fresh := by rwa [Server.enqueuedIds_performAll] }

/-- One more operation may follow. -/
theorem Server.admissible_perform {ops : List Op} {op : Op} (server server' : Server)
    (hwf : ∀ op' ∈ ops ++ [op], op'.WellFormed)
    (hfresh : (((ops ++ [op]).flatMap Op.jobs).map PreparedJob.id).Nodup) :
    Admissible ((Server.performAll ops server).1 ++ [(server'.perform op).1]) := by
  obtain ⟨result, hcall⟩ := server'.exists_result op
  rw [hcall]
  constructor
  · intro call hmem
    rcases List.mem_append.mp hmem with hmem | hmem
    · exact Server.wellFormed_performAll ops server
        (fun op' hop' => hwf op' (List.mem_append_left _ hop')) call hmem
    · rw [List.mem_singleton.mp hmem]
      exact hwf op (by simp)
  · have hids := Server.enqueuedIds_performAll ops server
    rw [enqueuedIds] at hids ⊢
    rwa [List.flatMap_append, List.map_append, hids, ← List.map_append, List.flatMap_singleton,
      Call.jobs, ← List.flatMap_singleton Op.jobs op, ← List.flatMap_append]

end Perform

end Sepp
