import Sepp.Committer.Loop
import Sepp.Safety.Polling

/-!
# Every command is answered once

In one life of the process the loop takes the commands off the channel in the order in which they
were sent, and answers each of them once, in the cycle that it takes them for. When every sender is
gone the loop stops within a number of steps that depends only on how long the channel is, and by
then everything that was ever sent is answered.

## Main definitions

* `Round.cmds`, `LoopPhase.taken` — the commands that a round answers, and those of the next one.
* `LoopState.rank` — how many steps are left to a loop without senders.

## Main results

* `LoopStep.handles`, `LoopStep.rank` — what one step does.
* `loop_serves` — every command is answered once, and the loop stops.
-/

namespace Sepp

/-! ### The commands on their way -/

/-- The commands of a round. -/
def Round.cmds : Round → List Command
  | rpc _ rpcs => rpcs
  | sweep .. | restart => []

/-- The commands that were taken for the cycle to come. -/
def LoopPhase.taken : LoopPhase → List Command
  | drain rpcs => rpcs
  | top | receive _ | publish | stopped => []

namespace LoopState

/-- The commands that are sent and not answered. -/
def pending (s : LoopState) : List Command := s.phase.taken ++ s.channel

/-- The steps that are left before the loop stops or publishes, when it has not yet taken a
command. -/
def receiveRank (channel : List Command) : ℕ :=
  if channel = [] then 1 else channel.length + 4

/-- The steps that are left to a loop without senders. -/
def rank (s : LoopState) : ℕ :=
  match s.phase with
  | .stopped => 0
  | .receive _ => receiveRank s.channel
  | .top => receiveRank s.channel + 1
  | .publish => receiveRank s.channel + 2
  | .drain _ => s.channel.length + 4

theorem receiveRank_bounds (channel : List Command) :
    1 ≤ receiveRank channel ∧ receiveRank channel ≤ channel.length + 4 := by
  unfold receiveRank
  split_ifs <;> omega

theorem rank_le (s : LoopState) : s.rank ≤ s.channel.length + 6 := by
  have hbounds := receiveRank_bounds s.channel
  unfold rank
  split <;> omega

theorem rank_eq_zero_iff (s : LoopState) : s.rank = 0 ↔ s.phase = .stopped := by
  have hbounds := receiveRank_bounds s.channel
  unfold rank
  cases s.phase with
  | stopped | top | publish | drain => simp
  | receive =>
    simp only [reduceCtorEq, iff_false]
    omega

end LoopState

/-- The process does not die in these steps. -/
def Live (labels : List LoopLabel) : Prop :=
  ∀ committed replies, .crash committed replies ∉ labels

theorem Live.of_append {labels labels' : List LoopLabel} (h : Live (labels ++ labels')) :
    Live labels ∧ Live labels' :=
  ⟨fun committed replies hmem => h committed replies (List.mem_append_left _ hmem),
    fun committed replies hmem => h committed replies (List.mem_append_right _ hmem)⟩

theorem Live.of_cons {label : LoopLabel} {labels : List LoopLabel} (h : Live (label :: labels)) :
    Live [label] ∧ Live labels :=
  Live.of_append h

section Loop

variable [Prost] {cfg : LoopConfig} {s s' : LoopState} {label : LoopLabel}
  {labels : List LoopLabel} {rows : Rows}

theorem Server.after_append (server : Server) (rounds rounds' : List Round) :
    server.after (rounds ++ rounds') = (server.after rounds).after rounds' :=
  List.foldl_append

/-- The loop changes its server by rounds. -/
theorem LoopStep.server (h : LoopStep cfg s label s') :
    s'.server = s.server.after label.rounds := by
  cases h <;> rfl

theorem server_of_loop (h : Trace (LoopStep cfg) s labels s') :
    s'.server = s.server.after (labels.flatMap LoopLabel.rounds) := by
  induction h with
  | nil => rfl
  | cons hstep _ ih => rw [ih, hstep.server, List.flatMap_cons, Server.after_append]

/-- A step of a live loop answers the commands that were pending first, and no others; what is sent
goes to the end. -/
theorem LoopStep.handles (h : LoopStep cfg s label s') (hlive : Live [label]) :
    s.pending ++ label.sent?.toList = label.rounds.flatMap Round.cmds ++ s'.pending ∧
      Answered (label.rounds.flatMap Round.cmds) label.replies := by
  have hnone : Answered [] [] := ⟨[], .refl _, .nil⟩
  cases h with
  | send hopen =>
    refine ⟨?_, hnone⟩
    simp [LoopState.pending, LoopLabel.sent?, LoopLabel.rounds]
  | close | timeout | stop =>
    refine ⟨?_, hnone⟩
    simp_all [LoopState.pending, LoopLabel.sent?, LoopLabel.rounds, LoopPhase.taken]
  | sweep htop | quiet htop =>
    refine ⟨?_, hnone⟩
    simp [LoopState.pending, LoopState.sweep, LoopLabel.sent?, LoopLabel.rounds, Round.cmds,
      LoopPhase.taken, htop]
  | take hphase hchannel | drain hphase hchannel =>
    refine ⟨?_, hnone⟩
    simp [LoopState.pending, LoopLabel.sent?, LoopLabel.rounds, LoopPhase.taken, hphase, hchannel]
  | publish hphase =>
    refine ⟨?_, hnone⟩
    simp [LoopState.pending, LoopState.publish, LoopLabel.sent?, LoopLabel.rounds,
      LoopPhase.taken, hphase]
  | @rpc env rpcs foldNow hphase hchannel henv =>
    refine ⟨?_, ?_⟩
    · simp [LoopState.pending, LoopState.rpc, LoopLabel.sent?, LoopLabel.rounds, Round.cmds,
        LoopPhase.taken, hphase, hchannel]
    · simpa [LoopLabel.rounds, LoopLabel.replies, Round.cmds] using
        answered_runRpcCycle env s.server rpcs
  | crash | crashBefore | crashAfter => exact absurd List.mem_cons_self (hlive _ _)

omit [Prost] in
theorem Answered.append {cmds cmds' : List Command} {replies replies' : List (ℕ × Reply)}
    (h : Answered cmds replies) (h' : Answered cmds' replies') :
    Answered (cmds ++ cmds') (replies ++ replies') := by
  obtain ⟨inOrder, hperm, hall⟩ := h
  obtain ⟨inOrder', hperm', hall'⟩ := h'
  exact ⟨inOrder ++ inOrder', hperm.append hperm', List.rel_append hall hall'⟩

/-- What a live loop has answered, in order, and what is left. -/
theorem handles_of_loop (h : Trace (LoopStep cfg) s labels s') (hlive : Live labels) :
    s.pending ++ labels.filterMap LoopLabel.sent? =
        (labels.flatMap LoopLabel.rounds).flatMap Round.cmds ++ s'.pending ∧
      Answered ((labels.flatMap LoopLabel.rounds).flatMap Round.cmds)
        (labels.flatMap LoopLabel.replies) := by
  induction h with
  | nil => exact ⟨by simp, [], .refl _, .nil⟩
  | @cons s mid s' label labels hstep _ ih =>
    obtain ⟨hfirst, hanswered⟩ := hstep.handles hlive.of_cons.1
    obtain ⟨hrest, hanswered'⟩ := ih hlive.of_cons.2
    constructor
    · calc s.pending ++ (label :: labels).filterMap LoopLabel.sent?
          = (s.pending ++ label.sent?.toList) ++ labels.filterMap LoopLabel.sent? := by
            rw [List.append_assoc]
            congr 1
            cases hsent : label.sent? <;> simp [hsent]
        _ = label.rounds.flatMap Round.cmds ++
              (mid.pending ++ labels.filterMap LoopLabel.sent?) := by
            rw [hfirst, List.append_assoc]
        _ = ((label :: labels).flatMap LoopLabel.rounds).flatMap Round.cmds ++ s'.pending := by
            rw [hrest, List.flatMap_cons, List.flatMap_append, List.append_assoc]
    · rw [List.flatMap_cons, List.flatMap_append, List.flatMap_cons]
      exact hanswered.append hanswered'

/-! ### Stopping -/

/-- A loop that has stopped has an empty channel, and nobody sends to it. -/
def LoopState.Ended (s : LoopState) : Prop :=
  s.phase = .stopped → s.channel = [] ∧ s.closed = true

theorem LoopStep.ended (h : LoopStep cfg s label s') (hs : s.Ended) : s'.Ended := by
  cases h with
  | send hopen =>
    intro hstopped
    rw [(hs hstopped).2] at hopen
    cases hopen
  | close => exact fun hstopped => ⟨(hs hstopped).1, rfl⟩
  | stop hphase hchannel hclosed => exact fun _ => ⟨hchannel, hclosed⟩
  | sweep | quiet | take | timeout | drain | rpc | publish | crash | crashBefore | crashAfter =>
    intro hstopped
    cases hstopped

/-- Without senders each step of a live loop leaves one step less. -/
theorem LoopStep.rank (h : LoopStep cfg s label s') (hclosed : s.closed = true)
    (hlive : Live [label]) : s.rank = s'.rank + 1 ∧ s'.closed = true := by
  cases h with
  | send hopen | close hopen | timeout _ _ hopen =>
    rw [hopen] at hclosed
    cases hclosed
  | sweep htop | quiet htop => exact ⟨by simp [LoopState.rank, LoopState.sweep, htop], hclosed⟩
  | take hphase hchannel =>
    exact ⟨by simp [LoopState.rank, LoopState.receiveRank, hphase, hchannel], hclosed⟩
  | stop hphase hchannel =>
    exact ⟨by simp [LoopState.rank, LoopState.receiveRank, hphase, hchannel], hclosed⟩
  | drain hphase hchannel =>
    exact ⟨by simp [LoopState.rank, hphase, hchannel], hclosed⟩
  | rpc hphase hchannel =>
    exact ⟨by simp [LoopState.rank, LoopState.rpc, LoopState.receiveRank, hphase, hchannel],
      hclosed⟩
  | publish hphase => exact ⟨by simp [LoopState.rank, LoopState.publish, hphase], hclosed⟩
  | crash | crashBefore | crashAfter => exact absurd List.mem_cons_self (hlive _ _)

theorem rank_of_loop (h : Trace (LoopStep cfg) s labels s') (hclosed : s.closed = true)
    (hlive : Live labels) : s.rank = s'.rank + labels.length := by
  induction h with
  | nil => rfl
  | @cons s mid s' label labels hstep _ ih =>
    obtain ⟨hrank, hclosed'⟩ := hstep.rank hclosed hlive.of_cons.1
    rw [hrank, ih hclosed' hlive.of_cons.2, List.length_cons]
    omega

/-- A loop that has not stopped can go on by itself. -/
theorem exists_loopStep (cfg : LoopConfig) (hphase : s.phase ≠ .stopped) :
    ∃ label s', LoopStep cfg s label s' ∧ Live [label] ∧ label.sent? = none := by
  have hquiet : ∀ {label : LoopLabel}, (∀ committed replies, label ≠ .crash committed replies) →
      Live [label] := fun hne committed replies hmem =>
    hne committed replies (List.mem_singleton.mp hmem).symm
  let env : CycleEnv := ⟨0, cfg.records, fun _ => none, false⟩
  cases hp : s.phase with
  | stopped => exact absurd hp hphase
  | top =>
    by_cases hdue : SweepDue s.server.indexes cfg.sweep.deadLetterRetentionMs 0
    · exact ⟨_, _, @LoopStep.sweep _ cfg s 0 env 0 0 hp hdue rfl, hquiet (by simp), rfl⟩
    · exact ⟨_, _, .quiet hp hdue, hquiet (by simp), rfl⟩
  | receive swept =>
    cases hchannel : s.channel with
    | cons cmd rest => exact ⟨_, _, .take hp hchannel, hquiet (by simp), rfl⟩
    | nil =>
      cases hclosed : s.closed with
      | true => exact ⟨_, _, .stop hp hchannel hclosed, hquiet (by simp), rfl⟩
      | false => exact ⟨_, _, .timeout hp hchannel hclosed, hquiet (by simp), rfl⟩
  | drain rpcs =>
    cases hchannel : s.channel with
    | cons cmd rest => exact ⟨_, _, .drain hp hchannel, hquiet (by simp), rfl⟩
    | nil =>
      exact ⟨_, _, @LoopStep.rpc _ cfg s env rpcs 0 hp hchannel rfl, hquiet (by simp), rfl⟩
  | publish => exact ⟨_, _, @LoopStep.publish _ cfg s true 0 hp, hquiet (by simp), rfl⟩

/-- The end of a life of the process. -/
structure Stops (cfg : LoopConfig) (s : LoopState) : Prop where
  /-- However it goes on, it stops after these many steps, and not before. -/
  stops : ∀ labels s', Trace (LoopStep cfg) s labels s' → Live labels →
    labels.length ≤ s.channel.length + 6 ∧ (s'.phase = .stopped ↔ labels.length = s.rank)
  /-- Until then it goes on. -/
  goesOn : ∀ labels s', Trace (LoopStep cfg) s labels s' → s'.phase ≠ .stopped →
    ∃ label s'', LoopStep cfg s' label s'' ∧ Live [label]

theorem stops_of_closed (hclosed : s.closed = true) : Stops cfg s where
  stops labels s' htrace hlive := by
    have hrank := rank_of_loop htrace hclosed hlive
    have hle := s.rank_le
    refine ⟨by omega, ?_⟩
    rw [← s'.rank_eq_zero_iff]
    omega
  goesOn labels s' _ hphase := by
    obtain ⟨label, s'', hstep, hlive, -⟩ := exists_loopStep cfg hphase
    exact ⟨label, s'', hstep, hlive⟩

/-- In one life of the process, whoever sends commands and whenever: the server went through the
rounds of the loop; the commands were taken in the order in which they were sent, and those of the
rounds so far have one reply each. Without senders the loop stops, within six steps more than there
are commands on the channel, and when it has stopped every command that was sent has its reply. -/
theorem loop_serves (htrace : Trace (LoopStep cfg) (.init rows) labels s) (hlive : Live labels) :
    s.server = (LoopState.init rows).server.after (labels.flatMap LoopLabel.rounds) ∧
    labels.filterMap LoopLabel.sent? =
      (labels.flatMap LoopLabel.rounds).flatMap Round.cmds ++ s.pending ∧
    Answered ((labels.flatMap LoopLabel.rounds).flatMap Round.cmds)
      (labels.flatMap LoopLabel.replies) ∧
    (s.closed = true → Stops cfg s) ∧
    (s.phase = .stopped →
      Answered (labels.filterMap LoopLabel.sent?) (labels.flatMap LoopLabel.replies)) := by
  obtain ⟨hsent, hanswered⟩ := handles_of_loop htrace hlive
  have hsent : labels.filterMap LoopLabel.sent? =
      (labels.flatMap LoopLabel.rounds).flatMap Round.cmds ++ s.pending := hsent
  refine ⟨server_of_loop htrace, hsent, hanswered, stops_of_closed, fun hstopped => ?_⟩
  have hended : s.Ended := htrace.preserves (fun _ _ _ _ hstep hs => hstep.ended hs)
    (fun h => by cases h)
  have hdone : s.pending = [] := by
    rw [LoopState.pending, hstopped, (hended hstopped).1]
    rfl
  rw [hsent, hdone, List.append_nil]
  exact hanswered

/-! ### What a loop can do -/

/-- Commands can be sent at any time. -/
theorem trace_send (cfg : LoopConfig) (s : LoopState) (hopen : s.closed = false)
    (cmds : List Command) :
    Trace (LoopStep cfg) s (cmds.map .send) { s with channel := s.channel ++ cmds } := by
  induction cmds generalizing s with
  | nil =>
    rw [List.append_nil]
    exact .nil s
  | cons cmd cmds ih =>
    have hrest := ih { s with channel := s.channel ++ [cmd] } hopen
    rw [List.append_assoc] at hrest
    exact .cons (.send hopen) hrest

/-- The channel is drained into one cycle. -/
theorem trace_drain (cfg : LoopConfig) (s : LoopState) (rpcs cmds : List Command) :
    Trace (LoopStep cfg) { s with channel := cmds, phase := .drain rpcs }
      (List.replicate cmds.length .take)
      { s with channel := [], phase := .drain (rpcs ++ cmds) } := by
  induction cmds generalizing rpcs with
  | nil =>
    rw [List.append_nil]
    exact .nil _
  | cons cmd cmds ih =>
    have hrest := ih (rpcs ++ [cmd])
    rw [List.append_assoc] at hrest
    exact .cons (.drain rfl rfl) hrest

omit [Prost] in
theorem rounds_of_send (cmds : List Command) (n : ℕ) :
    (cmds.map LoopLabel.send).flatMap LoopLabel.rounds = [] ∧
      (List.replicate n LoopLabel.take).flatMap LoopLabel.rounds = [] := by
  simp [List.flatMap_eq_nil_iff, LoopLabel.rounds]

omit [Prost] in
theorem sent_of_send (cmds : List Command) (n : ℕ) :
    (cmds.map LoopLabel.send).filterMap LoopLabel.sent? = cmds ∧
      (List.replicate n LoopLabel.take).filterMap LoopLabel.sent? = [] := by
  constructor
  · rw [List.filterMap_map]
    exact List.filterMap_some
  · simp [LoopLabel.sent?]

/-- Any commands may be those of the next cycle. -/
theorem exists_turn_of_loop (cfg : LoopConfig) (htop : s.phase = .top) (hchannel : s.channel = [])
    (hopen : s.closed = false) {now : Int64}
    (hquiet : ¬ SweepDue s.server.indexes cfg.sweep.deadLetterRetentionMs now) {env : CycleEnv}
    (henv : env.metricsEnabled = cfg.records) (cmd : Command) (cmds : List Command) :
    ∃ labels s', Trace (LoopStep cfg) s labels s' ∧ Live labels ∧
      labels.flatMap LoopLabel.rounds = [.rpc env (cmd :: cmds)] ∧
      labels.filterMap LoopLabel.sent? = cmd :: cmds ∧
      s'.server = (runRpcCycle env s.server (cmd :: cmds)).server ∧
      s'.phase = .top ∧ s'.channel = [] ∧ s'.closed = false := by
  have hsend := trace_send cfg s hopen (cmd :: cmds)
  rw [hchannel, List.nil_append] at hsend
  have hdrain := trace_drain cfg s [cmd] cmds
  have htrace := hsend.append <| .cons (.quiet htop hquiet) <| .cons (.take rfl rfl) <|
    hdrain.append <| .cons (@LoopStep.rpc _ cfg _ env _ now rfl rfl henv) <|
    .cons (@LoopStep.publish _ cfg _ true now rfl) <| .nil _
  refine ⟨_, _, htrace, fun committed replies hmem => ?_, ?_, ?_, rfl, rfl, rfl, hopen⟩
  · simp at hmem
  · simp only [List.flatMap_append, List.flatMap_cons, (rounds_of_send _ 0).1,
      (rounds_of_send [] _).2]
    rfl
  · simp only [List.filterMap_append, List.filterMap_cons, (sent_of_send _ 0).1,
      (sent_of_send [] _).2]
    exact List.append_nil _

end Loop

/-! ### A short life -/

/-- A loop that records nothing. -/
def quietLoop : LoopConfig := ⟨⟨100, 0⟩, false, false⟩

section ShortLife

variable [Prost]

/-- Nothing is due in a new database. -/
theorem not_sweepDue_init (retentionMs : UInt64) (now : Int64) :
    ¬ SweepDue (LoopState.init {}).server.indexes retentionMs now := by
  have hnew : (LoopState.init {}).server = {} := Server.shows_empty.rolledBack_eq
  have hnone : nextDeadline {} retentionMs = none := by
    rw [nextDeadline]
    split_ifs <;> rfl
  rintro ⟨deadline, hnext, -⟩
  rw [hnew, hnone] at hnext
  cases hnext

/-- The loop of a new database runs one cycle of given commands. -/
theorem exists_first_turn (env : CycleEnv) (henv : env.metricsEnabled = false) (cmd : Command)
    (cmds : List Command) :
    ∃ labels s, Trace (LoopStep quietLoop) (.init {}) labels s ∧ Live labels ∧
      labels.flatMap LoopLabel.rounds = [.rpc env (cmd :: cmds)] ∧
      labels.filterMap LoopLabel.sent? = cmd :: cmds ∧
      s.server = (runRpcCycle env {} (cmd :: cmds)).server ∧
      s.phase = .top ∧ s.channel = [] ∧ s.closed = false := by
  have hnew : (LoopState.init {}).server = {} := Server.shows_empty.rolledBack_eq
  rw [← hnew]
  exact exists_turn_of_loop quietLoop rfl rfl rfl (not_sweepDue_init _ 0) henv cmd cmds

/-- The last sender goes, and the loop stops. -/
theorem exists_stop (cfg : LoopConfig) {s : LoopState} (htop : s.phase = .top)
    (hchannel : s.channel = []) (hopen : s.closed = false) {now : Int64}
    (hquiet : ¬ SweepDue s.server.indexes cfg.sweep.deadLetterRetentionMs now) :
    ∃ s', Trace (LoopStep cfg) s [.close, .quiet now, .stop] s' ∧ s'.phase = .stopped :=
  ⟨_, .cons (.close hopen) <| .cons (.quiet htop hquiet) <|
    .cons (.stop rfl hchannel rfl) <| .nil _, rfl⟩

end ShortLife

open WireFormat in
/-- A question is asked of the loop of a new database, the one who asked goes, and the question has
been answered once. -/
theorem loop_serves_short_life :
    ∃ labels s, Trace (LoopStep quietLoop) (.init {}) labels s ∧ s.phase = .stopped ∧
      labels.filterMap LoopLabel.sent? = [.queueDepths "emails" 7] ∧
      Answered [.queueDepths "emails" 7] (labels.flatMap LoopLabel.replies) := by
  obtain ⟨labels, s, htrace, hlive, -, hsent, hserver, htop, hchannel, hopen⟩ :=
    exists_first_turn (calmEnv 0 false) rfl (.queueDepths "emails" 7) []
  have hquiet : ¬ SweepDue s.server.indexes quietLoop.sweep.deadLetterRetentionMs 0 := by
    rw [hserver]
    rintro ⟨deadline, hnext, -⟩
    cases hnext
  obtain ⟨s', hstop, hstopped⟩ := exists_stop quietLoop htop hchannel hopen hquiet
  have hall : Live (labels ++ [LoopLabel.close, .quiet 0, .stop]) := by
    intro committed replies hmem
    rcases List.mem_append.mp hmem with hmem | hmem
    · exact hlive committed replies hmem
    · simp at hmem
  have hasked : (labels ++ [LoopLabel.close, .quiet 0, .stop]).filterMap LoopLabel.sent? =
      [.queueDepths "emails" 7] := by
    rw [List.filterMap_append, hsent]
    rfl
  obtain ⟨-, -, -, -, hanswered⟩ := loop_serves (htrace.append hstop) hall
  rw [hasked] at hanswered
  exact ⟨_, s', htrace.append hstop, hstopped, hasked, hanswered hstopped⟩

end Sepp
