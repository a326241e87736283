import Sepp.Library.Linearize
import Sepp.Safety.Serving

/-!
# What is acknowledged is durable

The loop lives as often as its process is started, and dies at any time: with commands on the
channel, with a cycle half done, or after the commit of a cycle and before its replies. Whatever
happens, the operations that took effect are a run of the abstract machine in one order, which
respects what the callers see: an operation that was answered with success is in the order, with the
answer that its caller got; one that was answered before another was sent comes before it; and an
operation of which nobody was told took effect only if the process died. Beside the operations that
were sent, the order has the sweeps of the loop and its restarts.

## Main definitions

* `historyOf` — the calls that rounds commit, with the channels of their callers.
* `LoopLabel.seen` — what the callers see.
* `Durable` — an order of the operations that took effect.

## Main results

* `effects_of_rpc` — a cycle acknowledges what it commits.
* `loop_durable`.
-/

namespace Sepp

/-! ### Histories -/

/-- The operation was acknowledged, or would have been: it took effect. -/
def effect? : Option ℕ × Call → Option (ℕ × OpOutcome)
  | (some resp, .answered _ (.ok r)) => some (resp, r)
  | _ => none

/-- The acknowledgement in a reply. -/
def acknowledged? : ℕ × Reply → Option (ℕ × OpOutcome)
  | (resp, .op (.ok r)) => some (resp, r)
  | _ => none

/-- What the callers see of a label. -/
def LoopLabel.seen (label : LoopLabel) : List (Seen ℕ OpOutcome) :=
  (label.sent?.toList.map fun cmd => .call cmd.resp) ++
    (label.replies.filterMap acknowledged?).map fun x => .ret x.1 x.2

section History

variable [Prost] {env : CycleEnv} {cmds rpcs : List Command} {server : Server} {now : Int64}
  {run run' : CycleRun} {failure : Option (Status × List Command)}

/-- The calls that a round commits, with the channels of their callers. -/
def Round.history (server : Server) : Round → List (Option ℕ × Call)
  | rpc env rpcs =>
    match applyCommands env.now rpcs { tx := beginCycle env server } with
    | (some _, _) => []
    | (none, run) =>
      if (commitCycle env server run.tx).1.isOk then
        (cycleCalls env.now rpcs (beginCycle env server)).map fun x => (some x.1, x.2)
      else []
  | sweep env params => ((Round.sweep env params).committed server).map fun call => (none, call)
  | restart => [(none, .restart)]

theorem Round.map_snd_history (round : Round) (server : Server) :
    (round.history server).map Prod.snd = round.committed server := by
  cases round with
  | restart => rfl
  | sweep env params => simp [history]
  | rpc env rpcs =>
    rw [history, committed]
    cases applyCommands env.now rpcs { tx := beginCycle env server } with
    | mk failure run =>
      cases failure with
      | some failure => rfl
      | none =>
        dsimp only
        split_ifs
        · rw [List.map_map]
          rfl
        · rfl

/-- The calls that a sequence of rounds commits, with the channels of their callers. -/
def historyOf (server : Server) : List Round → List (Option ℕ × Call)
  | [] => []
  | round :: rounds => round.history server ++ historyOf (round.run server).server rounds

theorem historyOf_append (server : Server) (rounds rounds' : List Round) :
    historyOf server (rounds ++ rounds') =
      historyOf server rounds ++ historyOf (server.after rounds) rounds' := by
  induction rounds generalizing server with
  | nil => rfl
  | cons round rounds ih =>
    rw [List.cons_append, historyOf, historyOf, ih, List.append_assoc]
    rfl

theorem map_snd_historyOf (server : Server) (rounds : List Round) :
    (historyOf server rounds).map Prod.snd = committedCalls server rounds := by
  induction rounds generalizing server with
  | nil => rfl
  | cons round rounds ih =>
    rw [historyOf, committedCalls, List.map_append, round.map_snd_history, ih]

/-! ### Acknowledgements -/

/-- What is parked in a cycle that goes through is what its operations did. -/
theorem responders_of_applyCommands (hrun : applyCommands now cmds run = (none, run')) :
    run'.responders = run.responders ++
      ((cycleCalls now cmds run.tx).map fun x => (some x.1, x.2)).filterMap effect? := by
  induction cmds generalizing run with
  | nil =>
    obtain rfl : run = run' := congrArg Prod.snd hrun
    simp [cycleCalls]
  | cons cmd cmds ih =>
    cases cmd with
    | peekKeys | queueDepths =>
      simp only [applyCommands, applyCommand] at hrun
      have hrest := ih hrun
      exact hrest
    | op op resp =>
      cases hx : applyOp (op.stamp now) run.tx with
      | ok r tx =>
        simp only [applyCommands, applyCommand, hx] at hrun
        rw [ih hrun]
        simp [cycleCalls, hx, effect?]
      | error e tx =>
        simp only [applyCommands, applyCommand, hx] at hrun
        split_ifs at hrun with hcode
        · cases hrun
        · rw [ih hrun]
          simp only [cycleCalls, hx, if_neg hcode]
          rfl

/-- Nothing that is sent before the commit is an acknowledgement. -/
theorem acknowledged_of_sent (hrun : applyCommands now cmds run = (failure, run'))
    (hnone : run.sent = []) {replies : List (ℕ × Reply)} (hreplies : replies <+: run'.sent) :
    replies.filterMap acknowledged? = [] := by
  refine List.filterMap_eq_nil_iff.mpr fun x hx => ?_
  rw [acknowledged?.eq_def]
  split
  · have hsent := sent_of_applyCommands hrun (hreplies.subset hx)
    rw [hnone] at hsent
    cases hsent
  · rfl

omit [Prost] in
theorem acknowledged_respond (responders : List (ℕ × OpOutcome)) (e : Status) :
    (responders.map (respond (.ok ()))).filterMap acknowledged? = responders ∧
      (responders.map (respond (.error e))).filterMap acknowledged? = [] := by
  rw [List.filterMap_map, List.filterMap_map]
  exact ⟨List.filterMap_some, List.filterMap_eq_nil_iff.mpr fun _ _ => rfl⟩

/-- A cycle acknowledges what it commits. -/
theorem effects_of_rpc (env : CycleEnv) (rpcs : List Command) (server : Server) :
    (runRpcCycle env server rpcs).replies.filterMap acknowledged? =
      ((Round.rpc env rpcs).history server).filterMap effect? := by
  cases hrun : applyCommands env.now rpcs { tx := beginCycle env server } with
  | mk failure run =>
    have hsent := acknowledged_of_sent hrun rfl (List.prefix_refl _)
    cases failure with
    | some failure =>
      have hfailed : (failure.2.map (failCommand failure.1)).filterMap acknowledged? = [] := by
        rw [List.filterMap_map]
        refine List.filterMap_eq_nil_iff.mpr fun cmd _ => ?_
        cases cmd <;> rfl
      simp only [runRpcCycle, Round.history, hrun, List.filterMap_append, hsent, hfailed,
        (acknowledged_respond _ failure.1).2, List.filterMap_nil, List.append_nil]
    | none =>
      have hparked := responders_of_applyCommands hrun
      rw [List.nil_append] at hparked
      simp only [runRpcCycle, Round.history, hrun, List.filterMap_append, hsent, List.nil_append]
      cases (commitCycle env server run.tx).1 with
      | error e => exact (acknowledged_respond _ e).2
      | ok u => exact (acknowledged_respond _ ⟨.internal, ""⟩).1.trans hparked

/-- A call of a cycle is of one of its commands. -/
theorem exists_of_cycleCalls {tx : TxState} {resp : ℕ} {call : Call}
    (h : (resp, call) ∈ cycleCalls now cmds tx) :
    ∃ op result, .op op resp ∈ cmds ∧ call = .answered (op.stamp now) result := by
  induction cmds generalizing tx with
  | nil => cases h
  | cons cmd cmds ih =>
    have hlater : ∀ {tx}, (resp, call) ∈ cycleCalls now cmds tx →
        ∃ op result, .op op resp ∈ cmd :: cmds ∧ call = .answered (op.stamp now) result := by
      intro tx hmem
      obtain ⟨op, result, hop, hcall⟩ := ih hmem
      exact ⟨op, result, List.mem_cons_of_mem _ hop, hcall⟩
    cases cmd with
    | peekKeys | queueDepths => exact hlater h
    | op op resp' =>
      cases hx : applyOp (op.stamp now) tx with
      | ok r tx' =>
        simp only [cycleCalls, hx, List.mem_cons, Prod.mk.injEq] at h
        rcases h with ⟨rfl, rfl⟩ | h
        · exact ⟨op, _, List.mem_cons_self, rfl⟩
        · exact hlater h
      | error e tx' =>
        simp only [cycleCalls, hx, List.mem_cons, Prod.mk.injEq] at h
        rcases h with ⟨rfl, rfl⟩ | h
        · exact ⟨op, _, List.mem_cons_self, rfl⟩
        · split_ifs at h
          · cases h
          · exact hlater h

/-- The calls of a cycle come in the order of its commands. -/
theorem resps_cycleCalls (now : Int64) (cmds : List Command) (tx : TxState) :
    ((cycleCalls now cmds tx).map Prod.fst).Sublist (cmds.map Command.resp) := by
  induction cmds generalizing tx with
  | nil => exact .slnil
  | cons cmd cmds ih =>
    cases cmd with
    | peekKeys | queueDepths => exact (ih tx).cons _
    | op op resp =>
      cases hx : applyOp (op.stamp now) tx with
      | ok r tx' =>
        simp only [cycleCalls, hx, List.map_cons]
        exact (ih tx').cons_cons _
      | error e tx' =>
        simp only [cycleCalls, hx, List.map_cons]
        refine .cons_cons _ ?_
        split_ifs
        · exact List.nil_sublist _
        · exact ih tx'

omit [Prost] in
theorem effects_sublist (calls : List (ℕ × Call)) :
    (((calls.map fun x => (some x.1, x.2)).filterMap effect?).map Prod.fst).Sublist
      (calls.map Prod.fst) := by
  induction calls with
  | nil => exact .slnil
  | cons x calls ih =>
    obtain ⟨resp, call⟩ := x
    rcases call with ⟨op, e | r⟩ | _
    · exact ih.cons _
    · exact ih.cons_cons _
    · exact ih.cons _

/-- The operations of a round that take effect, in the order of its commands. -/
theorem Round.effects_sublist (round : Round) (server : Server) :
    (((round.history server).filterMap effect?).map Prod.fst).Sublist
      (round.cmds.map Command.resp) := by
  cases round with
  | restart => exact .slnil
  | sweep env params =>
    have hnone : ((Round.sweep env params).history server).filterMap effect? = [] := by
      rw [history, List.filterMap_map]
      exact List.filterMap_eq_nil_iff.mpr fun _ _ => rfl
    rw [hnone]
    exact List.nil_sublist _
  | rpc env rpcs =>
    rw [history]
    split
    · exact List.nil_sublist _
    · split_ifs
      · exact (Sepp.effects_sublist _).trans (resps_cycleCalls env.now rpcs _)
      · exact List.nil_sublist _

/-- The operations of rounds that take effect, in the order of their commands. -/
theorem effects_historyOf (server : Server) (rounds : List Round) :
    (((historyOf server rounds).filterMap effect?).map Prod.fst).Sublist
      ((rounds.flatMap Round.cmds).map Command.resp) := by
  induction rounds generalizing server with
  | nil => exact .slnil
  | cons round rounds ih =>
    rw [historyOf, List.filterMap_append, List.map_append, List.flatMap_cons, List.map_append]
    exact (round.effects_sublist server).append (ih _)

/-- Where an entry of a round comes from. -/
theorem Round.of_mem_history {round : Round} {entry : Option ℕ × Call}
    (h : entry ∈ round.history server) :
    (∃ op resp now result, .op op resp ∈ round.cmds ∧
      entry = (some resp, .answered (op.stamp now) result)) ∨
    (∃ env params result, round = .sweep env params ∧
      entry = (none, .answered (sweepOp params env.now) result)) ∨
    entry = (none, .restart) := by
  cases round with
  | restart => exact .inr (.inr (List.mem_singleton.mp h))
  | rpc env rpcs =>
    rw [history] at h
    split at h
    · cases h
    · split_ifs at h
      · obtain ⟨⟨resp, call⟩, hcall, rfl⟩ := List.mem_map.mp h
        obtain ⟨op, result, hop, rfl⟩ := exists_of_cycleCalls hcall
        exact .inl ⟨op, resp, env.now, result, hop, rfl⟩
      · cases h
  | sweep env params =>
    obtain ⟨call, hcall, rfl⟩ := List.mem_map.mp h
    refine .inr (.inl ⟨env, params, ?_⟩)
    rw [committed] at hcall
    split at hcall
    · cases hcall
    · split_ifs at hcall
      · obtain rfl := List.mem_singleton.mp hcall
        exact ⟨_, rfl, rfl⟩
      · cases hcall

theorem exists_round_of_mem_historyOf {rounds : List Round} {entry : Option ℕ × Call}
    (h : entry ∈ historyOf server rounds) :
    ∃ round ∈ rounds, ∃ server, entry ∈ round.history server := by
  induction rounds generalizing server with
  | nil => cases h
  | cons round rounds ih =>
    rcases List.mem_append.mp h with h | h
    · exact ⟨round, List.mem_cons_self, server, h⟩
    · obtain ⟨round', hround', hentry⟩ := ih h
      exact ⟨round', List.mem_cons_of_mem _ hround', hentry⟩

end History

/-! ### Steps -/

section Steps

variable [Prost] {cfg : LoopConfig} {s s' : LoopState} {label : LoopLabel}
  {labels : List LoopLabel}

/-- The operations that take effect in a step. -/
def LoopState.effects (s : LoopState) (label : LoopLabel) : List (ℕ × OpOutcome) :=
  (historyOf s.server label.rounds).filterMap effect?

/-- A live loop acknowledges what takes effect; when the process dies some of it may be. -/
theorem LoopStep.acknowledges (h : LoopStep cfg s label s') :
    label.replies.filterMap acknowledged? <+: s.effects label ∧
      (Live [label] → label.replies.filterMap acknowledged? = s.effects label) := by
  have hone : ∀ round : Round, (historyOf s.server [round]).filterMap effect? =
      (round.history s.server).filterMap effect? := fun round => by
    rw [historyOf, historyOf, List.append_nil]
  have hsame : label.replies.filterMap acknowledged? = s.effects label →
      label.replies.filterMap acknowledged? <+: s.effects label ∧
        (Live [label] → label.replies.filterMap acknowledged? = s.effects label) :=
    fun heq => ⟨heq ▸ List.prefix_refl _, fun _ => heq⟩
  cases h with
  | send | close | quiet | take | timeout | stop | drain | publish => exact hsame rfl
  | sweep =>
    refine hsame ?_
    rw [LoopState.effects, LoopLabel.rounds, hone, Round.history, List.filterMap_map]
    exact (List.filterMap_eq_nil_iff.mpr fun _ _ => rfl).symm
  | @rpc env rpcs =>
    refine hsame ?_
    rw [LoopState.effects, LoopLabel.rounds, hone]
    exact effects_of_rpc env rpcs s.server
  | crash => exact ⟨List.nil_prefix, fun hlive => absurd List.mem_cons_self (hlive _ _)⟩
  | @crashBefore env rpcs replies hphase hchannel henv hreplies =>
    refine ⟨?_, fun hlive => absurd List.mem_cons_self (hlive _ _)⟩
    have hnone := acknowledged_of_sent rfl rfl hreplies
    rw [LoopLabel.replies, hnone]
    exact List.nil_prefix
  | @crashAfter env rpcs replies hphase hchannel henv hreplies =>
    refine ⟨?_, fun hlive => absurd List.mem_cons_self (hlive _ _)⟩
    have heffects : s.effects (.crash (some (.rpc env rpcs)) replies) =
        ((Round.rpc env rpcs).history s.server).filterMap effect? := by
      rw [LoopState.effects, LoopLabel.rounds, Option.toList_some, historyOf_append,
        List.filterMap_append, hone]
      exact List.append_nil _
    rw [heffects, ← effects_of_rpc]
    exact hreplies.filterMap _

/-- What a step makes of the commands that are pending, and of the one that is sent. -/
theorem LoopStep.pending (h : LoopStep cfg s label s') :
    (label.rounds.flatMap Round.cmds ++ s'.pending).Sublist
      (s.pending ++ label.sent?.toList) := by
  by_cases hlive : Live [label]
  · rw [(h.handles hlive).1]
  cases h with
  | crash | crashBefore => exact List.nil_sublist _
  | crashAfter hphase =>
    have hpending : s.pending = s.phase.taken ++ s.channel := rfl
    rw [hpending, hphase]
    simp [LoopLabel.rounds, LoopPhase.taken, Round.cmds, LoopState.pending, LoopState.init]
  | send | close | quiet | take | timeout | stop | drain | publish | sweep | rpc =>
    exact absurd (fun committed replies hmem => by cases List.mem_singleton.mp hmem) hlive

/-- The sweeps of a loop are as it is configured. -/
theorem LoopStep.params (h : LoopStep cfg s label s') {env : CycleEnv} {params : SweepParams}
    (hround : .sweep env params ∈ label.rounds) : params = cfg.sweep := by
  cases h with
  | sweep =>
    cases List.mem_singleton.mp hround
    rfl
  | _ => simp [LoopLabel.rounds] at hround

/-! ### Runs -/

/-- The history of a loop of a new database. -/
def loopHistory (labels : List LoopLabel) : List (Option ℕ × Call) :=
  historyOf (LoopState.init {}).server (labels.flatMap LoopLabel.rounds)

/-- What holds at any time of the callers, of the history, and of the commands on their way. -/
structure Served (cfg : LoopConfig) (labels : List LoopLabel) (s : LoopState) : Prop where
  linear : Linearizes (labels.flatMap LoopLabel.seen) ((loopHistory labels).filterMap effect?)
  fifo : ((labels.flatMap LoopLabel.rounds).flatMap Round.cmds ++ s.pending).Sublist
    (labels.filterMap LoopLabel.sent?)
  params : ∀ env params, .sweep env params ∈ labels.flatMap LoopLabel.rounds →
    params = cfg.sweep
  acknowledged : Live labels → ∀ x ∈ (loopHistory labels).filterMap effect?,
    .ret x.1 x.2 ∈ labels.flatMap LoopLabel.seen

omit [Prost] in
theorem mem_seen_of_sent {labels : List LoopLabel} {cmd : Command}
    (h : cmd ∈ labels.filterMap LoopLabel.sent?) :
    .call cmd.resp ∈ labels.flatMap LoopLabel.seen := by
  obtain ⟨label, hlabel, hsent⟩ := List.mem_filterMap.mp h
  refine List.mem_flatMap.mpr ⟨label, hlabel, List.mem_append_left _ ?_⟩
  rw [hsent]
  exact List.mem_singleton_self _

/-- The history of a loop that goes on. -/
theorem loopHistory_concat (h : Trace (LoopStep cfg) (.init {}) labels s) (label : LoopLabel) :
    (loopHistory (labels ++ [label])).filterMap effect? =
      (loopHistory labels).filterMap effect? ++ s.effects label := by
  rw [loopHistory, List.flatMap_append, historyOf_append, List.filterMap_append, LoopState.effects,
    server_of_loop h, List.flatMap_singleton]
  rfl

theorem LoopStep.served (htrace : Trace (LoopStep cfg) (.init {}) labels s)
    (h : LoopStep cfg s label s') (hs : Served cfg labels s)
    (hresps : (((labels ++ [label]).filterMap LoopLabel.sent?).map Command.resp).Nodup) :
    Served cfg (labels ++ [label]) s' := by
  obtain ⟨hbegin, hall⟩ := h.acknowledges
  have hsent : (labels ++ [label]).filterMap LoopLabel.sent? =
      labels.filterMap LoopLabel.sent? ++ label.sent?.toList := by
    rw [List.filterMap_append]
    rfl
  have hseen : (labels ++ [label]).flatMap LoopLabel.seen =
      (labels.flatMap LoopLabel.seen ++ (label.sent?.toList.map Command.resp).map .call) ++
        (label.replies.filterMap acknowledged?).map fun x => .ret x.1 x.2 := by
    rw [List.flatMap_append, List.flatMap_singleton, LoopLabel.seen, List.map_map,
      List.append_assoc]
    rfl
  have hrounds : ((labels ++ [label]).flatMap LoopLabel.rounds).flatMap Round.cmds =
      (labels.flatMap LoopLabel.rounds).flatMap Round.cmds ++
        label.rounds.flatMap Round.cmds := by
    rw [List.flatMap_append, List.flatMap_append, List.flatMap_singleton]
  -- what is answered and what is pending comes in the order in which it was sent
  have hfifo : (((labels ++ [label]).flatMap LoopLabel.rounds).flatMap Round.cmds ++
      s'.pending).Sublist ((labels ++ [label]).filterMap LoopLabel.sent?) := by
    rw [hrounds, List.append_assoc, hsent]
    refine (h.pending.append_left _).trans ?_
    rw [← List.append_assoc]
    exact hs.fifo.append_right _
  have heffects : (((loopHistory (labels ++ [label])).filterMap effect?).map Prod.fst).Sublist
      (((labels ++ [label]).filterMap LoopLabel.sent?).map Command.resp) :=
    (effects_historyOf _ _).trans (((List.sublist_append_left _ _).trans hfifo).map _)
  rw [loopHistory_concat htrace] at heffects
  have hcalled : ∀ x ∈ s.effects label, .call x.1 ∈ labels.flatMap LoopLabel.seen ++
      (label.sent?.toList.map Command.resp).map .call := by
    intro x hx
    have hmem : x.1 ∈ ((labels ++ [label]).filterMap LoopLabel.sent?).map Command.resp :=
      heffects.subset (List.mem_map_of_mem (List.mem_append_right _ hx))
    obtain ⟨cmd, hcmd, heq⟩ := List.mem_map.mp hmem
    have hcall := mem_seen_of_sent hcmd
    rw [hseen, heq] at hcall
    refine (List.mem_append.mp hcall).resolve_right fun hret => ?_
    obtain ⟨y, -, hy⟩ := List.mem_map.mp hret
    cases hy
  refine ⟨?_, hfifo, fun env params hround => ?_, fun hlive x hx => ?_⟩
  · rw [loopHistory_concat htrace, hseen]
    refine (hs.linear.calls _).batch (hresps.sublist heffects) hcalled fun ret hret => ?_
    obtain ⟨x, hx, rfl⟩ := List.mem_map.mp hret
    exact ⟨x, hbegin.subset hx, rfl⟩
  · rw [List.flatMap_append, List.flatMap_singleton] at hround
    exact (List.mem_append.mp hround).elim (hs.params env params) h.params
  · rw [loopHistory_concat htrace] at hx
    rw [hseen]
    rcases List.mem_append.mp hx with hx | hx
    · exact List.mem_append_left _ (List.mem_append_left _
        (hs.acknowledged hlive.of_append.1 x hx))
    · rw [← hall hlive.of_append.2] at hx
      exact List.mem_append_right _ (List.mem_map_of_mem hx)

theorem served_of_loop (htrace : Trace (LoopStep cfg) (.init {}) labels s)
    (hresps : ((labels.filterMap LoopLabel.sent?).map Command.resp).Nodup) :
    Served cfg labels s := by
  induction labels using List.reverseRecOn generalizing s with
  | nil =>
    cases htrace
    exact ⟨.nil, .slnil, fun _ _ h => absurd h List.not_mem_nil,
      fun _ x hx => absurd hx List.not_mem_nil⟩
  | append_singleton labels label ih =>
    obtain ⟨mid, hbefore, hstep⟩ := htrace.split_last
    have hearlier := hresps
    rw [List.filterMap_append, List.map_append] at hearlier
    exact hstep.served hbefore (ih hbefore (List.nodup_append.mp hearlier).1) hresps

/-- An order of the operations that took effect in the lives of a loop. -/
structure Durable (cfg : LoopConfig) (labels : List LoopLabel) (s : LoopState)
    (history : List (Option ℕ × Call)) : Prop where
  /-- It is a run of the abstract machine, which ends where the server is. -/
  run : ∃ turns a, turns.map Turn.call = history.map Prod.snd ∧
    Trace TurnStep ({}, Image.empty) turns (s.server, a)
  /-- It agrees with what the callers see. -/
  linear : Linearizes (labels.flatMap LoopLabel.seen) (history.filterMap effect?)
  /-- The operations take effect in the order in which they were sent. -/
  fifo : ((history.filterMap effect?).map Prod.fst).Sublist
    ((labels.filterMap LoopLabel.sent?).map Command.resp)
  /-- What has a caller was sent by it, and what has none is a sweep or a restart. -/
  sources : ∀ entry ∈ history,
    (∃ op resp now result, .op op resp ∈ labels.filterMap LoopLabel.sent? ∧
      entry = (some resp, .answered (op.stamp now) result)) ∨
    (∃ now result, entry = (none, .answered (sweepOp cfg.sweep now) result)) ∨
    entry = (none, .restart)
  /-- When the process never dies, whatever takes effect is acknowledged. -/
  acknowledged : Live labels →
    ∀ x ∈ history.filterMap effect?, .ret x.1 x.2 ∈ labels.flatMap LoopLabel.seen

/-- Whoever sends commands and whenever, however often the process dies and wherever: the operations
that take effect do so in one order, which is a run of the abstract machine, agrees with what the
callers see, and has every acknowledged operation. -/
theorem loop_durable (htrace : Trace (LoopStep cfg) (.init {}) labels s)
    (hadm : AdmissibleRounds (labels.flatMap LoopLabel.rounds))
    (hresps : ((labels.filterMap LoopLabel.sent?).map Command.resp).Nodup) :
    ∃ history, Durable cfg labels s history := by
  obtain ⟨hlinear, hfifo, hparams, hacknowledged⟩ := served_of_loop htrace hresps
  have hnew : (LoopState.init {}).server = {} := Server.shows_empty.rolledBack_eq
  obtain ⟨turns, a, hcalls, hturns, -, -⟩ := (Run.of_rounds hadm).exists_turns
  refine ⟨loopHistory labels, ⟨turns, a, ?_, ?_⟩, hlinear, ?_, fun entry hentry => ?_,
    hacknowledged⟩
  · rw [hcalls, loopHistory, map_snd_historyOf, hnew]
  · rw [server_of_loop htrace, hnew]
    exact hturns
  · exact (effects_historyOf _ _).trans (((List.sublist_append_left _ _).trans hfifo).map _)
  · obtain ⟨round, hround, server, hmem⟩ := exists_round_of_mem_historyOf hentry
    rcases Round.of_mem_history hmem with ⟨op, resp, now, result, hop, rfl⟩ |
      ⟨env, params, result, rfl, rfl⟩ | rfl
    · refine .inl ⟨op, resp, now, result, ?_, rfl⟩
      exact hfifo.subset (List.mem_append_left _ (List.mem_flatMap.mpr ⟨round, hround, hop⟩))
    · rw [hparams env params hround]
      exact .inr (.inl ⟨env.now, result, rfl⟩)
    · exact .inr (.inr rfl)

end Steps

/-! ### A life that ends with a crash -/

open WireFormat in
/-- A job is enqueued, acknowledged, and the process dies. -/
theorem loop_durable_crash : ∃ labels s history,
    Trace (LoopStep quietLoop) (.init {}) (labels ++ [.crash none []]) s ∧
      labels.flatMap LoopLabel.rounds =
        [.rpc (calmEnv 1000 false) [.op (.enqueue [plainJob "a"] 0) 0]] ∧
      Durable quietLoop (labels ++ [.crash none []]) s history := by
  obtain ⟨labels, s, htrace, -, hrounds, hsent, -⟩ :=
    exists_first_turn (calmEnv 1000 false) rfl (.op (.enqueue [plainJob "a"] 0) 0) []
  have hcrash := htrace.append (.single .crash)
  have hall : (labels ++ [LoopLabel.crash none []]).flatMap LoopLabel.rounds =
      [.rpc (calmEnv 1000 false) [.op (.enqueue [plainJob "a"] 0) 0], .restart] := by
    rw [List.flatMap_append, hrounds]
    rfl
  have hasked : (labels ++ [LoopLabel.crash none []]).filterMap LoopLabel.sent? =
      [.op (.enqueue [plainJob "a"] 0) 0] := by
    rw [List.filterMap_append, hsent]
    rfl
  obtain ⟨history, hdurable⟩ := loop_durable hcrash (by rw [hall]; exact ⟨by decide, by decide⟩)
    (by rw [hasked]; decide)
  exact ⟨labels, _, history, hcrash, hrounds, hdurable⟩

end Sepp
