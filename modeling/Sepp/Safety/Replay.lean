import Sepp.Safety.Cycles
import Sepp.Safety.Mirror
import Sepp.Store.OpProto

/-!
# The log of operations can be replayed

An operation is a future entry of a replicated log: everything that its result depends on, the
clock and the configuration included, is in it or in the store. The tests in
`src/storage/replay_tests.rs` record operations, send them through their serialized form, and apply
them one by one to fresh stores with other parameters.

Whatever a server did, in cycles of any size, with cycles that were undone and with restarts: the
operations that it committed, replayed, give the same answers, the same rows and the same indexes.
So two servers with the same log are the same server.

## Main definitions

* `Server.applyAlone`, `Server.replay` — one operation, and a log of them, on a store without faults.
* `logOf` — the operations that rounds commit, with their answers.

## Main results

* `CallStep.applyAlone` — an operation does alone what it did in its cycle.
* `replay_of_rounds`.
-/

namespace Sepp

section Replay

variable [Prost]

/-- `Harness::apply`: an operation in a transaction of its own, committed if anything was
written. -/
def Server.applyAlone (metricsEnabled : Bool) (server : Server) (op : Op) :
    Except Status OpOutcome × Server :=
  let env := calmEnv 0 metricsEnabled
  match applyOp op (beginCycle env server) with
  | .ok r tx => (.ok r, (commitCycle env server tx).2)
  | .error e tx => (.error e, (commitCycle env server tx).2)

/-- The loop of `Harness::replay`. -/
def Server.replay (metricsEnabled : Bool) : Server → List Op →
    List (Except Status OpOutcome) × Server
  | server, [] => ([], server)
  | server, op :: ops =>
    let (result, server) := server.applyAlone metricsEnabled op
    let (results, server) := Server.replay metricsEnabled server ops
    (result :: results, server)

omit [Prost] in
/-- What a call is in the log. -/
def Call.entry? : Call → Option (Op × Except Status OpOutcome)
  | answered op result => some (op, result)
  | restart => none

/-- The operations that rounds commit, with their answers. -/
def logOf (rounds : List Round) : List (Op × Except Status OpOutcome) :=
  (committedCalls {} rounds).filterMap Call.entry?

/-- `Op::from_proto` of every serialized operation. -/
def readLog (log : List (Op × Except Status OpOutcome)) : Except Status (List Op) :=
  (log.map fun entry => entry.1.toProto).mapM Op.fromProto

omit [Prost] in
theorem readLog_eq (log : List (Op × Except Status OpOutcome)) :
    readLog log = .ok (log.map Prod.fst) := by
  rw [readLog]
  induction log with
  | nil => rfl
  | cons entry log ih =>
    rw [List.map_cons, List.mapM_cons, Op.proto_inverts.decode_encode, ih]
    rfl

/-- A log can be replayed in pieces. -/
theorem Server.replay_append (metricsEnabled : Bool) (server : Server) (ops ops' : List Op) :
    server.replay metricsEnabled (ops ++ ops') =
      ((server.replay metricsEnabled ops).1 ++
        ((server.replay metricsEnabled ops).2.replay metricsEnabled ops').1,
        ((server.replay metricsEnabled ops).2.replay metricsEnabled ops').2) := by
  induction ops generalizing server with
  | nil => rfl
  | cons op ops ih =>
    rw [List.cons_append, replay, replay]
    generalize server.applyAlone metricsEnabled op = first
    obtain ⟨result, server⟩ := first
    simp only [ih, List.cons_append]

/-! ### What is committed -/

omit [Prost] in
/-- The answer is no storage failure. -/
def Call.Lasting : Call → Prop
  | answered _ (.error e) => e.code ≠ .internal
  | answered _ (.ok _) | restart => True

/-- A cycle that goes on to its end has no storage failure. -/
theorem lasting_of_applyCommands {now : Int64} {cmds : List Command} {run run' : CycleRun}
    (hrun : applyCommands now cmds run = (none, run')) :
    ∀ call ∈ cycleCalls now cmds run.tx, call.2.Lasting := by
  induction cmds generalizing run with
  | nil => exact fun call hcall => absurd hcall List.not_mem_nil
  | cons cmd cmds ih =>
    cases cmd with
    | peekKeys | queueDepths =>
      simp only [applyCommands, applyCommand] at hrun
      have hrest := ih hrun
      exact hrest
    | op op resp =>
      intro call hcall
      cases hx : applyOp (op.stamp now) run.tx with
      | ok r tx =>
        simp only [applyCommands, applyCommand, hx] at hrun
        simp only [cycleCalls, hx, List.mem_cons] at hcall
        rcases hcall with rfl | hcall
        · exact trivial
        · exact ih hrun call hcall
      | error e tx =>
        simp only [applyCommands, applyCommand, hx] at hrun
        split_ifs at hrun with hcode
        · cases hrun
        simp only [cycleCalls, hx, if_neg hcode, List.mem_cons] at hcall
        rcases hcall with rfl | hcall
        · exact hcode
        · exact ih hrun call hcall

theorem Round.lasting (server : Server) (round : Round) :
    ∀ call ∈ round.committed server, call.Lasting := by
  intro call hcall
  unfold Round.committed at hcall
  split at hcall
  · split at hcall
    · cases hcall
    · rename_i hrun
      split_ifs at hcall
      · obtain ⟨answer, hanswer, rfl⟩ := List.mem_map.mp hcall
        exact lasting_of_applyCommands hrun answer hanswer
      · cases hcall
  · split at hcall
    · cases hcall
    · split_ifs at hcall
      · rw [List.mem_singleton.mp hcall]
        exact trivial
      · cases hcall
  · rw [List.mem_singleton.mp hcall]
    exact trivial

theorem lasting_of_committedCalls (server : Server) (rounds : List Round) :
    ∀ call ∈ committedCalls server rounds, call.Lasting := by
  induction rounds generalizing server with
  | nil => exact fun call hcall => absurd hcall List.not_mem_nil
  | cons round rounds ih =>
    intro call hcall
    rcases List.mem_append.mp hcall with hcall | hcall
    · exact round.lasting server call hcall
    · exact ih _ call hcall

/-! ### One operation -/

variable {server server' : Server} {a : Image} {op : Op} {call : Call} {calls : List Call}
  {ids : List String}

/-- An operation that is rejected is rejected also when no read fails. -/
theorem CallStep.exists_calm_rejected {e : Status}
    (h : CallStep server (.answered op (.error e)) server') (hcode : e.code ≠ .internal) :
    ∃ cycle tx, applyOp op ⟨server.rows, server.indexes, cycle, fun _ => none⟩ = .error e tx ∧
      server' = ⟨tx.rows, tx.indexes⟩ := by
  cases h with
  | failed cycle faults hrun hinternal => exact absurd hinternal hcode
  | rejected cycle faults herror =>
    obtain ⟨n, hn⟩ :=
      (oblivious_applyOp op).faults ⟨server.rows, server.indexes, cycle, fun _ => none⟩
    rcases undisturbed_or_first faults n with hall | ⟨i, fault, hi, hbefore, hfault⟩
    · have hrun := herror.symm.trans ((hn faults).1 hall)
      cases hx : applyOp op ⟨server.rows, server.indexes, cycle, fun _ => none⟩ with
      | ok r tx => cases hrun.trans (congrArg (withFaults _) hx)
      | error e' tx =>
        cases hrun.trans (congrArg (withFaults _) hx)
        exact ⟨cycle, tx, hx, rfl⟩
    · obtain ⟨tx, htx⟩ := (hn faults).2 i fault hi hbefore hfault
      cases herror.symm.trans htx
      exact absurd rfl hcode

/-- An operation does alone what it did in its cycle: the answer and the store are the same. -/
theorem CallStep.applyAlone {result : Except Status OpOutcome}
    (h : CallStep server (.answered op result) server') (hshows : server.Shows a)
    (hwf : op.WellFormed) (hfresh : a.Fresh op.jobs)
    (hlasting : (Call.answered op result).Lasting) (metricsEnabled : Bool) :
    server.applyAlone metricsEnabled op = (result, server') := by
  -- the record of the cycle makes no difference
  have hcycle := fun cycle => (oblivious_applyOp op).cycle
    ⟨server.rows, server.indexes, cycle, fun _ => none⟩ (Cycle.new metricsEnabled)
  cases result with
  | ok r =>
    obtain ⟨cycle, tx, hrun, rfl⟩ := h.exists_calm
    obtain ⟨c, hc⟩ := hcycle cycle
    rw [hrun] at hc
    have hown : applyOp op (beginCycle (calmEnv 0 metricsEnabled) server) =
      .ok r { tx with cycle := c } := hc
    obtain ⟨evs, a', hturn, hrec⟩ := applyOp_turn hshows hwf hfresh hown
    rcases commitCycle_cases (calmEnv 0 metricsEnabled) hshows hturn.shows hturn.events hrec with
      ⟨-, -, hfails⟩ | hcommit
    · cases hfails
    · simp only [Server.applyAlone, hown, hcommit]
      rfl
  | error e =>
    obtain ⟨cycle, tx, hrun, rfl⟩ := h.exists_calm_rejected hlasting
    obtain ⟨c, hc⟩ := hcycle cycle
    rw [hrun] at hc
    have hown : applyOp op (beginCycle (calmEnv 0 metricsEnabled) server) =
      .error e { tx with cycle := c } := hc
    obtain ⟨hserver, hnew⟩ := applyOp_refused hshows hwf hfresh hown hlasting
    have hkept : (⟨tx.rows, tx.indexes⟩ : Server) = server := hserver
    have hrows : tx.rows = server.rows := congrArg Server.rows hkept
    have hclean : c = Cycle.new metricsEnabled := hnew
    simp only [Server.applyAlone, hown, commitCycle, hclean, hrows]
    rfl

/-! ### Logs -/

/-- Calls are replayed. -/
theorem replay_of_calls (h : Trace CallStep server calls server') (hshows : server.Shows a)
    (hknows : a.Knows ids) (hwf : ∀ call ∈ calls, call.WellFormed)
    (hfresh : (ids ++ enqueuedIds calls).Nodup) (hlasting : ∀ call ∈ calls, call.Lasting)
    (metricsEnabled : Bool) :
    server.replay metricsEnabled ((calls.filterMap Call.entry?).map Prod.fst) =
      ((calls.filterMap Call.entry?).map Prod.snd, server') := by
  induction h generalizing a ids with
  | nil => rfl
  | @cons server mid server' call calls hstep _ ih =>
    have hids : ids ++ enqueuedIds (call :: calls) =
        (ids ++ call.jobs.map PreparedJob.id) ++ enqueuedIds calls := by
      simp [enqueuedIds]
    rw [hids] at hfresh
    have hnew : a.Fresh call.jobs := hknows.fresh (List.nodup_append.mp hfresh).1
    have hwf₀ := hwf call List.mem_cons_self
    obtain ⟨evs, b, hturn, -⟩ := hstep.exists_turn hshows hwf₀ hnew
    have hrest := ih hturn.shows (hturn.knows hknows)
      (fun call' hcall' => hwf call' (List.mem_cons_of_mem _ hcall')) hfresh
      fun call' hcall' => hlasting call' (List.mem_cons_of_mem _ hcall')
    cases call with
    | restart =>
      cases hstep
      rw [hshows.rolledBack_eq] at hrest
      exact hrest
    | answered op result =>
      have halone := hstep.applyAlone hshows hwf₀ hnew (hlasting _ List.mem_cons_self)
        metricsEnabled
      simp only [List.filterMap_cons, Call.entry?, List.map_cons, Server.replay, halone, hrest]

/-- Replaying the log of any rounds. -/
theorem replay_logOf {rounds : List Round} (hadm : AdmissibleRounds rounds)
    (metricsEnabled : Bool) : Server.replay metricsEnabled {} ((logOf rounds).map Prod.fst) =
      ((logOf rounds).map Prod.snd, Server.after {} rounds) := by
  have hrun := Run.of_rounds hadm
  have hknows : Image.empty.Knows [] := fun _ hid => absurd rfl hid
  exact replay_of_calls hrun.trace Server.shows_empty hknows hrun.admissible.wellFormed
    hrun.admissible.fresh (lasting_of_committedCalls {} rounds) metricsEnabled

/-- Whatever rounds a server went through, its log can be read back, and the operations of it,
replayed one by one on a fresh store, with metrics or without, up to any point and on from there,
give the answers that the server gave and the rows and the indexes that it has. Two servers with
the same operations in their logs gave the same answers and are in the same state. -/
theorem replay_of_rounds {rounds : List Round} (hadm : AdmissibleRounds rounds) :
    (∃ ops, readLog (logOf rounds) = .ok ops ∧ ∀ metricsEnabled,
      Server.replay metricsEnabled {} ops =
        ((logOf rounds).map Prod.snd, Server.after {} rounds) ∧
      ∀ n, ((Server.replay metricsEnabled {} (ops.take n)).2.replay metricsEnabled
        (ops.drop n)).2 = Server.after {} rounds) ∧
    ∀ rounds', AdmissibleRounds rounds' →
      (logOf rounds').map Prod.fst = (logOf rounds).map Prod.fst →
      logOf rounds' = logOf rounds ∧ Server.after {} rounds' = Server.after {} rounds := by
  refine ⟨⟨_, readLog_eq _, fun metricsEnabled => ⟨replay_logOf hadm metricsEnabled,
    fun n => ?_⟩⟩, fun rounds' hadm' hops => ?_⟩
  · have hall := replay_logOf hadm metricsEnabled
    rw [← List.take_append_drop n ((logOf rounds).map Prod.fst), Server.replay_append] at hall
    exact congrArg Prod.snd hall
  · have hfirst := replay_logOf hadm false
    have hsecond := replay_logOf hadm' false
    rw [hops, hfirst, Prod.mk.injEq] at hsecond
    refine ⟨?_, hsecond.2.symm⟩
    rw [← List.zip_unzip (logOf rounds'), ← List.zip_unzip (logOf rounds), List.unzip_eq_map,
      List.unzip_eq_map, hops, hsecond.1]

end Replay

open WireFormat in
/-- The log of the five rounds has three operations: one cycle and the commit of another failed. -/
theorem replay_of_fiveRounds : (logOf fiveRounds).length = 3 ∧
    ∃ ops, readLog (logOf fiveRounds) = .ok ops ∧
      (Server.replay true {} ops).2 = Server.after {} fiveRounds := by
  have hadm : AdmissibleRounds fiveRounds := ⟨by decide, by decide⟩
  obtain ⟨⟨ops, hread, hreplay⟩, -⟩ := replay_of_rounds hadm
  refine ⟨by decide +kernel, ops, hread, ?_⟩
  rw [(hreplay true).1]

end Sepp
