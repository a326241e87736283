import Sepp.Admin.Delete
import Sepp.Safety.Draining

/-!
# What deleting a queue destroys

While the tombstone of a queue is alive no job enters the queue, so a queue that `drain_queue` has
found empty stays empty until it is purged, and the chunks of the purge remove no job and no dead
letter. But the depths are answered from the transaction of a cycle in progress. When that cycle is
rolled back, the answer is about a state that never was: the queue may hold what it held before,
and the purge removes it.

## Main definitions

* `Image.Guarded` — the tombstone of a queue outlives the stamps of some operations.
* `TimelyStep` — a step of the handler or of other clients before the deadline of the tombstone.
* `Misled` — the handler finds a queue empty that is not.

## Main results

* `Round.vacant` — a guarded queue without jobs gets none in a round.
* `deleting_destroys_nothing`.
-/

open Std

namespace Sepp

/-! ### A guarded queue -/

/-- The queue has no job, dead or alive. -/
def Image.Vacant (a : Image) (queue : String) : Prop :=
  ∀ id js, a.jobs id = some js → js.content.queue.1 ≠ queue

/-- The operations that have a stamp have one before the deadline. -/
def StampedBefore (ops : List Op) (deadline : Int64) : Prop :=
  ∀ op ∈ ops, ∀ now, op.nowMs? = some now → now < deadline

/-- The tombstone of the queue outlives the stamps of the operations. -/
def Image.Guarded (a : Image) (queue : String) (ops : List Op) : Prop :=
  ∃ deadline, a.closing queue = some deadline ∧ StampedBefore ops deadline

/-- The operation leaves a tombstone of the queue, and one that lasts as long as those of
`delete_queue`. -/
def Op.Keeps (queue : String) : Op → Prop
  | .openQueue other => other ≠ queue
  | .closeQueue other _ graceMs => other = queue → graceMs = closeGraceMs
  | _ => True

/-- The operations have one stamp. -/
def OneStamp (ops : List Op) : Prop :=
  ∀ op ∈ ops, ∀ op' ∈ ops, ∀ now now', op.nowMs? = some now → op'.nowMs? = some now' → now = now'

theorem Op.Spares.keeps {queue : String} {op : Op} (h : op.Spares queue) : op.Keeps queue := by
  cases op with
  | closeQueue => exact fun heq => absurd heq h
  | openQueue => exact h
  | _ => trivial

/-- A tombstone set before the end of time outlives its own stamp. -/
theorem lt_saturatingAdd_closeGraceMs {now deadline : Int64} (h : now < deadline) :
    now < saturatingAdd now closeGraceMs := by
  rw [Int64.lt_iff_toInt_lt] at h ⊢
  have hmax := deadline.toInt_lt
  have hmin := now.le_toInt
  rw [toInt_saturatingAdd, show closeGraceMs.toInt = 30000 from rfl]
  omega

section Events

variable [Prost] {a a' : Image} {e : Event} {queue : String} {op : Op} {ops : List Op}

theorem Step.guarded (h : Step a e a') (hmakes : op.Makes e) (hop : op ∈ ops)
    (hkeeps : op.Keeps queue) (hone : OneStamp ops) (hguard : a.Guarded queue ops) :
    a'.Guarded queue ops := by
  obtain ⟨deadline, hclosing, hstamps⟩ := hguard
  cases hc : e.closes with
  | false => exact ⟨deadline, by rw [h.closing_eq hc, hclosing], hstamps⟩
  | true =>
    cases h with
    | close owner later =>
      obtain ⟨now, graceMs, rfl, rfl⟩ := hmakes.of_close
      by_cases hqueue : owner = queue
      · subst hqueue
        obtain rfl := hkeeps rfl
        refine ⟨_, Function.update_self .., fun op' hop' now' hnow' => ?_⟩
        obtain rfl := hone _ hop _ hop' _ _ rfl hnow'
        exact lt_saturatingAdd_closeGraceMs (hstamps _ hop now rfl)
      · exact ⟨deadline, (Function.update_of_ne (Ne.symm hqueue) ..).trans hclosing, hstamps⟩
    | reopen owner =>
      obtain rfl := hmakes.of_reopen
      exact ⟨deadline, (Function.update_of_ne (Ne.symm hkeeps) ..).trans hclosing, hstamps⟩
    | lapse now =>
      obtain ⟨budget, cutoff, kept, rfl⟩ := hmakes.of_lapse
      refine ⟨deadline, ?_, hstamps⟩
      change (a.closing queue).filter _ = _
      rw [hclosing, Option.filter_some, if_pos]
      exact decide_eq_true (hstamps _ hop now rfl)
    | _ => cases hc

/-- A job enters a queue by an insertion only, and a guarded queue refuses it. -/
theorem Step.vacant (h : Step a e a') (hmakes : op.Makes e) (hop : op ∈ ops)
    (hguard : a.Guarded queue ops) (hvacant : a.Vacant queue) : a'.Vacant queue := by
  have hset : ∀ {id : String} {x : Option JobState},
      (∀ js, x = some js → js.content.queue.1 ≠ queue) → (a.setJob id x).Vacant queue := by
    intro id x hx id' js hJ
    rw [Image.setJob_jobs] at hJ
    by_cases hid : id' = id
    · rw [hid, Function.update_self] at hJ
      exact hx js hJ
    · rw [Function.update_of_ne hid] at hJ
      exact hvacant id' js hJ
  have hmoved : ∀ {id : String} {js : JobState} {x : Option JobState}, a.jobs id = some js →
      (∀ js', x = some js' → js'.content = js.content) → (a.setJob id x).Vacant queue :=
    fun hJ hx => hset fun js' hjs' => (hx js' hjs').symm ▸ hvacant _ _ hJ
  cases h with
  | @insert job now hq _ _ hopen =>
    have hne : job.req.queue ≠ queue := by
      rintro rfl
      obtain ⟨deadline, hclosing, hstamps⟩ := hguard
      obtain ⟨jobs, hjobs, -⟩ := hmakes.of_insert
      refine hopen ⟨deadline, hclosing, hstamps op hop now ?_⟩
      rcases hjobs with rfl | rfl <;> rfl
    have hinserted : (a.setJob job.id (some (job.fresh hq now))).Vacant queue := by
      refine hset fun js hjs => ?_
      obtain rfl := Option.some.inj hjs
      exact hne
    intro id js hJ
    rw [Image.rememberJob_jobs] at hJ
    exact hinserted id js hJ
  | lease hJ | retry hJ | extend hJ | promote hJ | redeliver hJ | requeue hJ =>
    refine hmoved hJ fun js hjs => ?_
    obtain rfl := Option.some.inj hjs
    rfl
  | @bury _ _ _ _ hJ _ _ _ kept =>
    refine hmoved hJ fun js hjs => ?_
    split_ifs at hjs
    rw [← Option.some.inj hjs]
  | ack | discard | purge => exact hset fun js hjs => by cases hjs
  | hit | full | closed | forget | purgeDedup | close | reopen | lapse | append => exact hvacant

theorem closing_of_close {deadline : Int64} (h : Trace Step a [.close queue deadline] a') :
    a'.closing queue = some deadline := by
  cases h with
  | cons hstep hnil =>
    cases hnil
    cases hstep
    exact Function.update_self ..

end Events

/-! ### Rounds -/

section Rounds

variable [Prost] {a : Image} {server : Server} {queue : String} {ops : List Op} {ids : List String}

/-- Turns of operations that keep the tombstone. -/
theorem guarded_of_turns {turns : List Turn} {s s' : Server × Image}
    (h : Trace TurnStep s turns s')
    (hops : ∀ t ∈ turns, ∀ op, t.call.op? = some op → op ∈ ops ∧ op.Keeps queue)
    (hone : OneStamp ops) (hguard : s.2.Guarded queue ops) :
    s'.2.Guarded queue ops ∧ (s.2.Vacant queue → s'.2.Vacant queue) := by
  refine h.preserves
    (P := fun b => b.2.Guarded queue ops ∧ (s.2.Vacant queue → b.2.Vacant queue))
    (fun b t c ht hturn hb => ?_) ⟨hguard, id⟩
  refine hturn.events.preserves
    (P := fun x => x.Guarded queue ops ∧ (s.2.Vacant queue → x.Vacant queue))
    (fun x e y he hstep ⟨hx, hvacant⟩ => ?_) hb
  obtain ⟨op, r, hcall, hmakes⟩ := hturn.explained.exists_op he
  obtain ⟨hop, hkeeps⟩ := hops t ht op (by rw [hcall]; rfl)
  exact ⟨hstep.guarded hmakes hop hkeeps hone hx,
    fun hs => hstep.vacant hmakes hop hx (hvacant hs)⟩

omit [Prost] in
theorem oneStamp_stampedOps (now : Int64) (cmds : List Command) : OneStamp (stampedOps now cmds) := by
  have hstamp : ∀ op ∈ stampedOps now cmds, ∀ t, op.nowMs? = some t → t = now := by
    intro op hop t ht
    obtain ⟨op', -, rfl⟩ := List.mem_map.mp hop
    cases op' <;> first | exact (Option.some.inj ht).symm | cases ht
  intro op hop op' hop' t t' ht ht'
  rw [hstamp op hop t ht, hstamp op' hop' t' ht']

omit [Prost] in
theorem Round.oneStamp (round : Round) : OneStamp round.ops := by
  cases round with
  | rpc env rpcs => exact oneStamp_stampedOps env.now rpcs
  | sweep env params =>
    intro op hop op' hop' t t' ht ht'
    rw [Round.ops, List.mem_singleton] at hop hop'
    rw [hop] at ht
    rw [hop'] at ht'
    exact Option.some.inj (ht.symm.trans ht')
  | restart => exact fun op hop => absurd hop List.not_mem_nil

/-- A guarded queue stays guarded in a round, and without jobs if it has none. -/
theorem Round.guarded (round : Round) (h : server.Shows a) (hknows : a.Knows ids)
    (hwf : ∀ op ∈ round.ops, op.WellFormed) (hfresh : (ids ++ jobIdsOf round.ops).Nodup)
    (hkeeps : ∀ op ∈ round.ops, op.Keeps queue) (hguard : a.Guarded queue round.ops) :
    ∃ a', (round.run server).server.Shows a' ∧ a'.Knows (ids ++ jobIdsOf round.ops) ∧
      a'.Guarded queue round.ops ∧ (a.Vacant queue → a'.Vacant queue) := by
  obtain ⟨turns, a', hcalls, htrace, hshows', hknows'⟩ := round.exists_turns h hknows hwf hfresh
  refine ⟨a', hshows', hknows', guarded_of_turns htrace (fun t ht op hop => ?_) round.oneStamp
    hguard⟩
  have hmem : op ∈ round.ops := by
    refine (round.ops_committed server).subset (List.mem_filterMap.mpr ⟨t.call, ?_, hop⟩)
    rw [← hcalls]
    exact List.mem_map_of_mem ht
  exact ⟨hmem, hkeeps op hmem⟩

/-- The turns of commands that keep the tombstone. -/
theorem guarded_of_cycleCalls {now : Int64} {cmds : List Command} {tx : TxState}
    {turns : List Turn} {s s' : Server × Image}
    (hcalls : turns.map Turn.call = (cycleCalls now cmds tx).map Prod.snd)
    (h : Trace TurnStep s turns s') (hops : ∀ op ∈ stampedOps now cmds, op ∈ ops ∧ op.Keeps queue)
    (hone : OneStamp ops) (hguard : s.2.Guarded queue ops) :
    s'.2.Guarded queue ops ∧ (s.2.Vacant queue → s'.2.Vacant queue) := by
  refine guarded_of_turns h (fun t ht op hop => hops op ?_) hone hguard
  refine (ops_cycleCalls now cmds tx).subset (List.mem_filterMap.mpr ⟨t.call, ?_, hop⟩)
  rw [← hcalls]
  exact List.mem_map_of_mem ht

end Rounds

/-! ### The steps of the handler -/

/-- The depths that a request in a cycle gets: those of the transaction after the commands before
it. -/
def depthsSeen [Prost] (env : CycleEnv) (server : Server) (before : List Command)
    (queue : String) : QueueDepthCounts :=
  (applyCommands env.now before { tx := beginCycle env server }).2.tx.indexes.depthCounts queue

/-- The cycle is rolled back: an operation met a storage failure, or the commit failed. -/
def rollsBack [Prost] (env : CycleEnv) (server : Server) (cmds : List Command) : Bool :=
  match applyCommands env.now cmds { tx := beginCycle env server } with
  | (some _, _) => true
  | (none, run) => !(commitCycle env server run.tx).1.isOk

/-- The depths of a queue without jobs. -/
def noDepths : QueueDepthCounts := ⟨0, 0, 0, 0⟩

/-- What is applied between the first request of the handler and its last chunk is stamped before
the deadline of the tombstone. -/
def Timely (queue : String) (s : Server × Deleting) (label : DeleteLabel) : Prop :=
  match s.2, label with
  | .closing, .own env _ _ after =>
    StampedBefore (stampedOps env.now after) (saturatingAdd env.now closeGraceMs)
  | .checking, label | .draining _, label =>
    ∀ deadline, s.1.indexes.closing[queue]? = some deadline →
      StampedBefore label.round.ops deadline
  | _, _ => True

/-- The request for the depths is answered, the commands before it having gone through, in a cycle
that is rolled back, whose transaction saw the queue empty while the store holds jobs of it. -/
def Misled [Prost] (queue : String) (s : Server × Deleting) (label : DeleteLabel) : Prop :=
  match s.2, label with
  | .checking, .own env before cmd after =>
    (applyCommands env.now before { tx := beginCycle env s.1 }).1 = none ∧
      rollsBack env s.1 (before ++ cmd :: after) = true ∧
      depthsSeen env s.1 before queue = noDepths ∧ s.1.indexes.depthCounts queue ≠ noDepths
  | _, _ => False

/-- A step of the handler without `purge`, or of other clients, before the deadline of the
tombstone. -/
structure TimelyStep [Prost] (queue : String) (resp : ℕ) (s : Server × Deleting)
    (label : DeleteLabel) (s' : Server × Deleting) : Prop where
  step : DeleteStep false queue resp s label s'
  timely : Timely queue s label

/-- What the store and the tombstone are like while the handler waits. -/
def Deleting.Sound (queue : String) (a : Image) : Deleting → Prop
  | checking => ∃ deadline, a.closing queue = some deadline
  | draining _ => (∃ deadline, a.closing queue = some deadline) ∧ a.Vacant queue
  | _ => True

section Handler

variable [Prost] {a : Image} {server server' : Server} {queue : String} {ids : List String}
  {resp : ℕ} {d d' : Deleting} {label : DeleteLabel}

/-- A queue without depths has no jobs, and the other way round. -/
theorem Represents.vacant_iff {rows : Rows} {idx : Indexes} (h : Represents a rows idx)
    (queue : String) : idx.depthCounts queue = noDepths ↔ a.Vacant queue := by
  have hzero : ∀ ks, a.placed queue ks = 0 ↔
      ∀ id js, a.jobs id = some js →
        ¬ (js.content.queue.1 = queue ∧ js.place.keyspace? = some ks) :=
    fun ks => census_eq_zero_iff h.finite_jobs
  rw [Indexes.depthCounts, noDepths, QueueDepthCounts.mk.injEq, h.ready_eq, h.scheduled_eq,
    h.leases_eq, h.dead_eq, hzero, hzero, hzero, hzero]
  constructor
  · rintro ⟨hready, hscheduled, hleases, hdead⟩ id js hJ hqueue
    have hsettled := h.settled id js hJ
    cases hp : js.place with
    | limbo => exact hsettled hp
    | ready => exact hready id js hJ ⟨hqueue, by rw [hp]; rfl⟩
    | scheduled => exact hscheduled id js hJ ⟨hqueue, by rw [hp]; rfl⟩
    | leased => exact hleases id js hJ ⟨hqueue, by rw [hp]; rfl⟩
    | dead => exact hdead id js hJ ⟨hqueue, by rw [hp]; rfl⟩
  · intro hvacant
    exact ⟨fun id js hJ hin => hvacant id js hJ hin.1, fun id js hJ hin => hvacant id js hJ hin.1,
      fun id js hJ hin => hvacant id js hJ hin.1, fun id js hJ hin => hvacant id js hJ hin.1⟩

omit [Prost] in
/-- The handler starts to purge only if all depths are zero. -/
theorem Deleting.checkDepths_cases (depths : QueueDepthCounts) :
    (∃ e, checkDepths false depths = .opening (.error e)) ∨
      checkDepths false depths = .draining (.chunk 0) ∧ depths = noDepths := by
  obtain ⟨ready, scheduled, inflight, deadLetter⟩ := depths
  unfold checkDepths noDepths
  split_ifs with hleases hjobs
  · exact .inl ⟨_, rfl⟩
  · exact .inl ⟨_, rfl⟩
  · refine .inr ⟨rfl, ?_⟩
    simp only [Bool.not_false, true_and, not_or] at hjobs
    rw [QueueDepthCounts.mk.injEq]
    dsimp only at hleases hjobs
    omega

/-- The depths that are answered on a channel are those that the transaction has after the commands
before the request. -/
theorem depths_of_reply {env : CycleEnv} {before after : List Command} {depths : QueueDepthCounts}
    (hchannel : ∀ other ∈ before ++ after, other.resp ≠ resp)
    (h : (resp, .queueDepths (.ok depths)) ∈
      (runRpcCycle env server (before ++ .queueDepths queue resp :: after)).replies) :
    ∃ mid, applyCommands env.now before { tx := beginCycle env server } = (none, mid) ∧
      depths = mid.tx.indexes.depthCounts queue := by
  obtain ⟨failure, run, hrun, hsent⟩ : ∃ failure run,
      applyCommands env.now (before ++ .queueDepths queue resp :: after)
        { tx := beginCycle env server } = (failure, run) ∧
      (resp, .queueDepths (.ok depths)) ∈ run.sent := by
    rw [runRpcCycle] at h
    cases hrun : applyCommands env.now (before ++ .queueDepths queue resp :: after)
        { tx := beginCycle env server } with
    | mk failure run =>
      refine ⟨failure, run, rfl, ?_⟩
      have hparked : ∀ outcome,
          (resp, .queueDepths (.ok depths)) ∉ run.responders.map (respond outcome) := by
        intro outcome hmem
        obtain ⟨pending, -, heq⟩ := List.mem_map.mp hmem
        cases outcome <;> cases heq
      cases failure with
      | none => exact (List.mem_append.mp (by simpa only [hrun] using h)).resolve_right (hparked _)
      | some failure =>
        simp only [hrun, List.mem_append] at h
        rcases h with (h | h) | h
        · exact h
        · exact absurd h (hparked _)
        · obtain ⟨cmd, -, heq⟩ := List.mem_map.mp h
          cases cmd <;> cases heq
  obtain ⟨earlier, cmd, later, mid, heq, hearlier, hmid, hstep⟩ := exists_step_of_applyCommands
    (P := fun run => (resp, .queueDepths (.ok depths)) ∈ run.sent) hrun hsent List.not_mem_nil
  -- the command that was answered has the channel of the request, so it is the request
  have hown : cmd.resp = resp → earlier = before ∧ cmd = .queueDepths queue resp := by
    intro hresp
    have hnot : ∀ cmds : List Command, (∀ other ∈ cmds, other.resp ≠ resp) → cmd ∉ cmds :=
      fun cmds hall hmem => hall cmd hmem hresp
    obtain ⟨hbefore, hcmd, -⟩ := (List.append_cons_inj_of_notMem
      (hnot before fun other hmem => hchannel other (List.mem_append_left _ hmem))
      (hnot after fun other hmem => hchannel other (List.mem_append_right _ hmem))).mp heq
    exact ⟨hbefore.symm, hcmd.symm⟩
  have hadds : ∀ {reply : ℕ × Reply}, (resp, .queueDepths (.ok depths)) ∈ mid.sent ++ [reply] →
      reply = (resp, .queueDepths (.ok depths)) :=
    fun hmem => (List.mem_singleton.mp ((List.mem_append.mp hmem).resolve_left hmid)).symm
  cases cmd with
  | queueDepths owner resp' =>
    obtain ⟨rfl, hreply⟩ := Prod.mk.inj (hadds hstep)
    obtain ⟨rfl, hcmd⟩ := hown rfl
    obtain ⟨rfl, -⟩ := Command.queueDepths.inj hcmd
    exact ⟨mid, hearlier, (Except.ok.inj (Reply.queueDepths.inj hreply)).symm⟩
  | peekKeys => cases hadds hstep
  | op op resp' =>
    cases hx : applyOp (op.stamp env.now) mid.tx <;> simp only [applyCommand, hx] at hstep
    · exact absurd hstep hmid
    · split_ifs at hstep <;> cases hadds hstep

omit [Prost] in
theorem Op.keeps_of_stampedOps {now : Int64} {cmds : List Command}
    (h : ∀ cmd ∈ cmds, ∀ op, cmd.op? = some op → (op.stamp now).Keeps queue) :
    ∀ op ∈ stampedOps now cmds, op.Keeps queue := by
  intro op hop
  obtain ⟨op', hop', rfl⟩ := List.mem_map.mp hop
  obtain ⟨cmd, hcmd, heq⟩ := List.mem_filterMap.mp hop'
  exact h cmd hcmd op' heq

omit [Prost] in
theorem Op.Spares.keeps_stamp {op : Op} (h : op.Spares queue) (now : Int64) :
    (op.stamp now).Keeps queue := by
  cases op with
  | closeQueue => exact fun heq => absurd heq h
  | openQueue => exact h
  | _ => trivial

omit [Prost] in
/-- Until it opens the queue again, the handler keeps the tombstone. -/
theorem Deleting.keeps_command {cmd : Command} (h : d.command queue resp = some cmd)
    (hd : ∀ drained, d ≠ opening drained) (now : Int64) :
    ∀ op, cmd.op? = some op → (op.stamp now).Keeps queue := by
  intro op hop
  cases d with
  | closing =>
    obtain rfl := Option.some.inj h
    obtain rfl := Option.some.inj hop
    exact fun _ => rfl
  | checking =>
    obtain rfl := Option.some.inj h
    cases hop
  | draining loop =>
    cases loop with
    | chunk =>
      obtain rfl := Option.some.inj h
      obtain rfl := Option.some.inj hop
      trivial
    | refresh =>
      obtain rfl := Option.some.inj h
      obtain rfl := Option.some.inj hop
      exact fun _ => rfl
    | returned => cases h
  | opening drained => exact absurd rfl (hd drained)
  | finished => cases h

/-- A cycle that is rolled back leaves the store as it was, any other as its transaction sees it. -/
theorem runRpcCycle_server {env : CycleEnv} {cmds : List Command} {run : CycleRun} {a' : Image}
    {evs : List Event}
    (hrun : applyCommands env.now cmds { tx := beginCycle env server } = (none, run))
    (hshows : server.Shows a) (hshows' : run.tx.server.Shows a') (htrace : Trace Step a evs a')
    (hrec : Recorded evs (Cycle.new env.metricsEnabled) run.tx.cycle) :
    (rollsBack env server cmds = true ∧ (runRpcCycle env server cmds).server = server) ∨
      rollsBack env server cmds = false ∧ (runRpcCycle env server cmds).server = run.tx.server := by
  rcases commitCycle_cases env hshows hshows' htrace hrec with ⟨hcommit, -, -⟩ | hcommit
  · exact .inl ⟨by simp only [rollsBack, hrun, hcommit]; rfl,
      by simp only [runRpcCycle, hrun, hcommit]⟩
  · exact .inr ⟨by simp only [rollsBack, hrun, hcommit]; rfl,
      by simp only [runRpcCycle, hrun, hcommit]⟩

variable {env : CycleEnv} {before after : List Command}

/-- The tombstone is there when the first request is answered. -/
theorem exists_tombstone_of_close {r : OpOutcome} (hshows : server.Shows a)
    (hknows : a.Knows ids)
    (hwf : ∀ op ∈ stampedOps env.now (before ++ .op (closeRequest queue 0) resp :: after),
      op.WellFormed)
    (hfresh : (ids ++ jobIdsOf
      (stampedOps env.now (before ++ .op (closeRequest queue 0) resp :: after))).Nodup)
    (hkeeps : ∀ op ∈ stampedOps env.now after, op.Keeps queue)
    (htimely : StampedBefore (stampedOps env.now after) (saturatingAdd env.now closeGraceMs))
    (hreply : (resp, .op (.ok r)) ∈ (runRpcCycle env server
      (before ++ .op (closeRequest queue 0) resp :: after)).replies) :
    ∃ a', (runRpcCycle env server
        (before ++ .op (closeRequest queue 0) resp :: after)).server.Shows a' ∧
      a'.Knows (ids ++ jobIdsOf
        (stampedOps env.now (before ++ .op (closeRequest queue 0) resp :: after))) ∧
      ∃ deadline, a'.closing queue = some deadline := by
  obtain ⟨run, hrun, hcommit, -⟩ := parked_of_reply hreply
  obtain ⟨mid, turns, b, turns', a', -, -, htrace, -, hcalls', htrace', hshows', hknows', hrec,
    hrec'⟩ :=
    applyCommands_turns_append hrun hshows hknows hwf hfresh
  obtain ⟨tx, hclose⟩ : ∃ tx, applyOp ((closeRequest queue 0).stamp env.now) mid.tx =
      .ok .closeQueue tx := ⟨_, rfl⟩
  simp only [cycleCalls, hclose, List.map_cons] at hcalls'
  obtain ⟨t, rest, rfl, hcall, hcalls'⟩ := List.map_eq_cons_iff.mp hcalls'
  have hevents := (events_of_turns htrace).append (events_of_turns htrace')
  refine ⟨a', ?_, hknows', ?_⟩
  · rcases runRpcCycle_server hrun hshows hshows' hevents (hrec.append hrec') with
      ⟨hback, -⟩ | ⟨-, hserver⟩
    · simp [rollsBack, hrun, hcommit, Except.isOk, Except.toBool] at hback
    · rwa [hserver]
  · cases htrace' with
    | cons hturn hrest =>
      have hexplained := hturn.explained
      have hclosed := hturn.events
      rw [hcall] at hexplained
      rw [show t.events = [.close queue (saturatingAdd env.now closeGraceMs)] from hexplained]
        at hclosed
      obtain ⟨⟨deadline, hdeadline, -⟩, -⟩ := guarded_of_cycleCalls hcalls' hrest
        (fun op hop => ⟨hop, hkeeps op hop⟩) (oneStamp_stampedOps env.now after)
        ⟨_, closing_of_close hclosed, htimely⟩
      exact ⟨deadline, hdeadline⟩

omit [Prost] in
theorem Image.Knows.mono {ids' : List String} (h : a.Knows ids) : a.Knows (ids ++ ids') :=
  fun id hid => List.mem_append_left _ (h id hid)

/-- A queue that the handler finds empty, and is not misled about, is empty after the cycle. -/
theorem vacant_of_depths (hshows : server.Shows a) (hknows : a.Knows ids)
    (hwf : ∀ op ∈ stampedOps env.now (before ++ .queueDepths queue resp :: after), op.WellFormed)
    (hfresh : (ids ++ jobIdsOf
      (stampedOps env.now (before ++ .queueDepths queue resp :: after))).Nodup)
    (hkeeps : ∀ op ∈ stampedOps env.now (before ++ .queueDepths queue resp :: after),
      op.Keeps queue)
    (hguard : a.Guarded queue
      (stampedOps env.now (before ++ .queueDepths queue resp :: after)))
    (hchannel : ∀ other ∈ before ++ after, other.resp ≠ resp)
    (hreply : (resp, .queueDepths (.ok noDepths)) ∈
      (runRpcCycle env server (before ++ .queueDepths queue resp :: after)).replies)
    (hinformed : ¬ Misled queue (server, .checking)
      (.own env before (.queueDepths queue resp) after)) :
    ∃ a', (runRpcCycle env server (before ++ .queueDepths queue resp :: after)).server.Shows a' ∧
      a'.Knows (ids ++ jobIdsOf
        (stampedOps env.now (before ++ .queueDepths queue resp :: after))) ∧
      (∃ deadline, a'.closing queue = some deadline) ∧ a'.Vacant queue := by
  obtain ⟨mid, hmid, hdepths⟩ := depths_of_reply hchannel hreply
  have hseen : depthsSeen env server before queue = noDepths := by
    rw [depthsSeen, hmid, ← hdepths]
  -- a cycle that is rolled back leaves the store, of which the handler has the truth
  have hback : rollsBack env server (before ++ .queueDepths queue resp :: after) = true →
      a.Vacant queue := by
    intro hback
    rw [← hshows.vacant_iff]
    by_contra hholds
    exact hinformed ⟨by rw [hmid], hback, hseen, hholds⟩
  obtain ⟨deadline, hclosing, hstamps⟩ := hguard
  cases hrun : applyCommands env.now (before ++ .queueDepths queue resp :: after)
      { tx := beginCycle env server } with
  | mk failure run =>
    cases failure with
    | some failure =>
      have hserver : (runRpcCycle env server
          (before ++ .queueDepths queue resp :: after)).server = server := by
        simp only [runRpcCycle, hrun, hshows.rolledBack_eq]
      rw [hserver]
      exact ⟨a, hshows, hknows.mono, ⟨deadline, hclosing⟩,
        hback (by simp only [rollsBack, hrun])⟩
    | none =>
      obtain ⟨mid', turns, b, turns', a', hmid', hcalls, htrace, hshowsMid, hcalls', htrace',
        hshows', hknows', hrec, hrec'⟩ := applyCommands_turns_append hrun hshows hknows hwf hfresh
      obtain rfl : mid = mid' := congrArg Prod.snd (hmid.symm.trans hmid')
      have hevents := (events_of_turns htrace).append (events_of_turns htrace')
      rcases runRpcCycle_server hrun hshows hshows' hevents (hrec.append hrec') with
        ⟨hrolled, hserver⟩ | ⟨-, hserver⟩
      · rw [hserver]
        exact ⟨a, hshows, hknows.mono, ⟨deadline, hclosing⟩, hback hrolled⟩
      · have hone := oneStamp_stampedOps env.now (before ++ .queueDepths queue resp :: after)
        have hall : ∀ cmds : List Command,
            (∀ cmd ∈ cmds, cmd ∈ before ++ .queueDepths queue resp :: after) →
            ∀ op ∈ stampedOps env.now cmds,
              op ∈ stampedOps env.now (before ++ .queueDepths queue resp :: after) ∧
                op.Keeps queue := by
          intro cmds hsub op hop
          have hmem : op ∈ stampedOps env.now (before ++ .queueDepths queue resp :: after) := by
            obtain ⟨op', hop', rfl⟩ := List.mem_map.mp hop
            obtain ⟨cmd, hcmd, heq⟩ := List.mem_filterMap.mp hop'
            exact List.mem_map_of_mem (List.mem_filterMap.mpr ⟨cmd, hsub cmd hcmd, heq⟩)
          exact ⟨hmem, hkeeps op hmem⟩
        obtain ⟨hguardMid, -⟩ := guarded_of_cycleCalls hcalls htrace
          (hall before fun cmd hcmd => List.mem_append_left _ hcmd) hone
          ⟨deadline, hclosing, hstamps⟩
        obtain ⟨⟨deadline', hclosing', -⟩, hvacant⟩ := guarded_of_cycleCalls hcalls' htrace'
          (hall _ fun cmd hcmd => List.mem_append_right _ hcmd) hone hguardMid
        rw [hserver]
        exact ⟨a', hshows', hknows', ⟨deadline', hclosing'⟩,
          hvacant ((hshowsMid.vacant_iff queue).mp hdepths.symm)⟩

omit [Prost] in
/-- The commands of a cycle keep the tombstone when the handler's own does and the others spare
it. -/
theorem keeps_of_spares {cmd : Command}
    (hspares : ∀ other ∈ before ++ after, ∀ op, other.op? = some op → op.Spares queue)
    (hcmd : ∀ op, cmd.op? = some op → (op.stamp env.now).Keeps queue) :
    ∀ op ∈ stampedOps env.now (before ++ cmd :: after), op.Keeps queue := by
  refine Op.keeps_of_stampedOps fun cmd' hcmd' op hop => ?_
  rcases List.mem_append.mp hcmd' with hmem | hmem
  · exact (hspares cmd' (List.mem_append_left _ hmem) op hop).keeps_stamp env.now
  · rcases List.mem_cons.mp hmem with rfl | hmem
    · exact hcmd op hop
    · exact (hspares cmd' (List.mem_append_right _ hmem) op hop).keeps_stamp env.now

/-- Whatever a round does, it leaves a store that stands for something. -/
theorem Round.sound_of_forall (round : Round) (hshows : server.Shows a) (hknows : a.Knows ids)
    (hwf : ∀ op ∈ round.ops, op.WellFormed) (hfresh : (ids ++ jobIdsOf round.ops).Nodup)
    (hd : ∀ b, d.Sound queue b) :
    ∃ a', (round.run server).server.Shows a' ∧ a'.Knows (ids ++ jobIdsOf round.ops) ∧
      d.Sound queue a' := by
  obtain ⟨-, a', -, -, hshows', hknows'⟩ := round.exists_turns hshows hknows hwf hfresh
  exact ⟨a', hshows', hknows', hd a'⟩

/-- A round in time that keeps the tombstone keeps what the handler relies on. -/
theorem Round.keeps_sound (round : Round) (hshows : server.Shows a) (hknows : a.Knows ids)
    (hwf : ∀ op ∈ round.ops, op.WellFormed) (hfresh : (ids ++ jobIdsOf round.ops).Nodup)
    (hkeeps : ∀ op ∈ round.ops, op.Keeps queue)
    (htimely : ∀ deadline, server.indexes.closing[queue]? = some deadline →
      StampedBefore round.ops deadline) (hsound : d.Sound queue a) :
    ∃ a', (round.run server).server.Shows a' ∧ a'.Knows (ids ++ jobIdsOf round.ops) ∧
      d.Sound queue a' := by
  have hguard : ∀ {deadline}, a.closing queue = some deadline → a.Guarded queue round.ops :=
    fun hclosing => ⟨_, hclosing, htimely _ ((hshows.metadata.closing queue).trans hclosing)⟩
  cases d with
  | closing | opening | finished =>
    exact round.sound_of_forall hshows hknows hwf hfresh fun _ => trivial
  | checking =>
    obtain ⟨deadline, hclosing⟩ := hsound
    obtain ⟨a', hshows', hknows', ⟨deadline', hclosing', -⟩, -⟩ :=
      round.guarded hshows hknows hwf hfresh hkeeps (hguard hclosing)
    exact ⟨a', hshows', hknows', deadline', hclosing'⟩
  | draining loop =>
    obtain ⟨⟨deadline, hclosing⟩, hvacant⟩ := hsound
    obtain ⟨a', hshows', hknows', ⟨deadline', hclosing', -⟩, hkept⟩ :=
      round.guarded hshows hknows hwf hfresh hkeeps (hguard hclosing)
    exact ⟨a', hshows', hknows', ⟨deadline', hclosing'⟩, hkept hvacant⟩

/-- The answer to the first request: with a success the tombstone is there. -/
theorem sound_of_closing {reply : Reply} (hshows : server.Shows a) (hknows : a.Knows ids)
    (hwf : ∀ op ∈ stampedOps env.now (before ++ .op (closeRequest queue 0) resp :: after),
      op.WellFormed)
    (hfresh : (ids ++ jobIdsOf
      (stampedOps env.now (before ++ .op (closeRequest queue 0) resp :: after))).Nodup)
    (hspares : ∀ other ∈ before ++ after, ∀ op, other.op? = some op → op.Spares queue)
    (htimely : StampedBefore (stampedOps env.now after) (saturatingAdd env.now closeGraceMs))
    (hreply : (resp, reply) ∈ (runRpcCycle env server
      (before ++ .op (closeRequest queue 0) resp :: after)).replies) :
    ∃ a', (runRpcCycle env server
        (before ++ .op (closeRequest queue 0) resp :: after)).server.Shows a' ∧
      a'.Knows (ids ++ jobIdsOf
        (stampedOps env.now (before ++ .op (closeRequest queue 0) resp :: after))) ∧
      (Deleting.closing.resume false reply).Sound queue a' := by
  have hany : (∀ b, (Deleting.closing.resume false reply).Sound queue b) → _ :=
    Round.sound_of_forall (.rpc env (before ++ .op (closeRequest queue 0) resp :: after)) hshows
      hknows hwf hfresh
  rcases reply with (e | r) | page | depths
  · exact hany fun _ => trivial
  · by_cases hr : r = .closeQueue
    · subst hr
      exact exists_tombstone_of_close hshows hknows hwf hfresh
        (Op.keeps_of_stampedOps fun cmd hcmd op hop =>
          (hspares cmd (List.mem_append_right _ hcmd) op hop).keeps_stamp env.now) htimely hreply
    · refine hany fun _ => ?_
      cases r <;> trivial
  · exact hany fun _ => trivial
  · exact hany fun _ => trivial

/-- The answer to the request for the depths: the handler goes on with an empty queue, or it is
done. -/
theorem sound_of_checking {reply : Reply} (hshows : server.Shows a) (hknows : a.Knows ids)
    (hwf : ∀ op ∈ stampedOps env.now (before ++ .queueDepths queue resp :: after), op.WellFormed)
    (hfresh : (ids ++ jobIdsOf
      (stampedOps env.now (before ++ .queueDepths queue resp :: after))).Nodup)
    (hchannel : ∀ other ∈ before ++ after, other.resp ≠ resp)
    (hspares : ∀ other ∈ before ++ after, ∀ op, other.op? = some op → op.Spares queue)
    (htimely : ∀ deadline, server.indexes.closing[queue]? = some deadline →
      StampedBefore (stampedOps env.now (before ++ .queueDepths queue resp :: after)) deadline)
    (hsound : Deleting.Sound queue a .checking)
    (hreply : (resp, reply) ∈
      (runRpcCycle env server (before ++ .queueDepths queue resp :: after)).replies)
    (hinformed : ¬ Misled queue (server, .checking)
      (.own env before (.queueDepths queue resp) after)) :
    ∃ a', (runRpcCycle env server (before ++ .queueDepths queue resp :: after)).server.Shows a' ∧
      a'.Knows (ids ++ jobIdsOf
        (stampedOps env.now (before ++ .queueDepths queue resp :: after))) ∧
      (Deleting.checking.resume false reply).Sound queue a' := by
  have hkeeps : ∀ op ∈ stampedOps env.now (before ++ .queueDepths queue resp :: after),
      op.Keeps queue := keeps_of_spares hspares fun op hop => by cases hop
  have hkept := Round.keeps_sound (.rpc env (before ++ .queueDepths queue resp :: after)) hshows
    hknows hwf hfresh hkeeps htimely hsound
  have hany : (∀ b, (Deleting.checking.resume false reply).Sound queue b) → _ :=
    Round.sound_of_forall (.rpc env (before ++ .queueDepths queue resp :: after)) hshows hknows hwf
      hfresh
  rcases reply with result | page | (e | depths)
  · exact hkept
  · exact hkept
  · exact hany fun _ => trivial
  · rcases Deleting.checkDepths_cases depths with ⟨e, hopening⟩ | ⟨hdraining, rfl⟩
    · refine hany fun _ => ?_
      rw [Deleting.resume, hopening]
      trivial
    · obtain ⟨deadline, hclosing⟩ := hsound
      rw [Deleting.resume, hdraining]
      exact vacant_of_depths hshows hknows hwf hfresh hkeeps
        ⟨deadline, hclosing, htimely _ ((hshows.metadata.closing queue).trans hclosing)⟩ hchannel
        hreply hinformed

/-- The answer to a request of the loop: the queue is still empty. -/
theorem sound_of_draining {loop : Draining} {cmd : Command} {reply : Reply}
    (hcmd : (Deleting.draining loop).command queue resp = some cmd) (hshows : server.Shows a)
    (hknows : a.Knows ids)
    (hwf : ∀ op ∈ stampedOps env.now (before ++ cmd :: after), op.WellFormed)
    (hfresh : (ids ++ jobIdsOf (stampedOps env.now (before ++ cmd :: after))).Nodup)
    (hspares : ∀ other ∈ before ++ after, ∀ op, other.op? = some op → op.Spares queue)
    (htimely : ∀ deadline, server.indexes.closing[queue]? = some deadline →
      StampedBefore (stampedOps env.now (before ++ cmd :: after)) deadline)
    (hsound : Deleting.Sound queue a (.draining loop)) :
    ∃ a', (runRpcCycle env server (before ++ cmd :: after)).server.Shows a' ∧
      a'.Knows (ids ++ jobIdsOf (stampedOps env.now (before ++ cmd :: after))) ∧
      ((Deleting.draining loop).resume false reply).Sound queue a' := by
  have hkeeps := keeps_of_spares hspares
    (Deleting.keeps_command hcmd (fun _ => by simp) env.now)
  obtain ⟨a', hshows', hknows', hend⟩ := Round.keeps_sound (.rpc env (before ++ cmd :: after))
    hshows hknows hwf hfresh hkeeps htimely hsound
  refine ⟨a', hshows', hknows', ?_⟩
  cases reply with
  | peekKeys | queueDepths => exact hend
  | op result =>
    rw [Deleting.resume]
    cases loop.resume result with
    | returned => trivial
    | chunk | refresh => exact hend

/-- A step in time, by which the handler is not misled, keeps what it relies on. -/
theorem TimelyStep.sound (h : TimelyStep queue resp (server, d) label (server', d'))
    (hinformed : ¬ Misled queue (server, d) label) (hshows : server.Shows a)
    (hknows : a.Knows ids) (hwf : ∀ op ∈ label.round.ops, op.WellFormed)
    (hfresh : (ids ++ jobIdsOf label.round.ops).Nodup) (hsound : d.Sound queue a) :
    ∃ a', server'.Shows a' ∧ a'.Knows (ids ++ jobIdsOf label.round.ops) ∧ d'.Sound queue a' := by
  obtain ⟨hstep, htimely⟩ := h
  cases hstep with
  | @other server d round hspares =>
    have hkeeps : ∀ op ∈ round.ops, op.Keeps queue := fun op hop => (hspares op hop).keeps
    cases d with
    | closing | opening | finished =>
      exact round.sound_of_forall hshows hknows hwf hfresh fun _ => trivial
    | checking | draining => exact round.keeps_sound hshows hknows hwf hfresh hkeeps htimely hsound
  | @own server d env before after cmd reply hcmd hchannel hspares hreply =>
    cases d with
    | opening drained =>
      refine Round.sound_of_forall (.rpc env (before ++ cmd :: after)) hshows hknows hwf hfresh
        fun _ => ?_
      cases reply <;> trivial
    | finished => cases hcmd
    | closing =>
      obtain rfl := Option.some.inj hcmd
      exact sound_of_closing hshows hknows hwf hfresh hspares htimely hreply
    | checking =>
      obtain rfl := Option.some.inj hcmd
      exact sound_of_checking hshows hknows hwf hfresh hchannel hspares htimely hsound hreply
        hinformed
    | draining loop =>
      exact sound_of_draining hcmd hshows hknows hwf hfresh hspares htimely hsound

end Handler

/-! ### The chunks -/

/-- The rows of jobs and of dead letters are the same. -/
def Rows.SameJobs (rows rows' : Rows) : Prop :=
  rows'.jobs = rows.jobs ∧ rows'.payloads = rows.payloads ∧ rows'.deadLetter = rows.deadLetter

/-- The handler is served in the cycle with a chunk, which takes the transaction of the cycle from
`run` to `run'`; what comes before the chunk is stamped before the deadline of the tombstone. -/
structure OwnChunk [Prost] (queue : String) (resp : ℕ) (s : Server × Deleting) (env : CycleEnv)
    (before after : List Command) (run run' : CycleRun) : Prop where
  served : ∃ s', DeleteStep false queue resp s
    (.own env before (.op (purgeRequest queue purgeChunk) resp) after) s'
  timely : ∀ deadline, s.1.indexes.closing[queue]? = some deadline →
    StampedBefore (stampedOps env.now before) deadline
  earlier : applyCommands env.now before { tx := beginCycle env s.1 } = (none, run)
  applied : applyCommand env.now (.op (purgeRequest queue purgeChunk) resp) run = (.ok (), run')

/-- A step of the handler or of other clients, in time, by which the handler is not misled. -/
structure InformedStep [Prost] (queue : String) (resp : ℕ) (s : Server × Deleting)
    (label : DeleteLabel) (s' : Server × Deleting) : Prop where
  step : TimelyStep queue resp s label s'
  informed : ¬ Misled queue s label

section Chunks

variable [Prost] {a : Image} {queue : String} {tx tx' : TxState}

/-- A purge of a queue without jobs finds dedup records only. -/
theorem jobs_eq_of_purges {a' : Image} {evs : List Event} (h : Trace Step a evs a')
    (hevs : ∀ e ∈ evs, PurgesQueue queue e) (hvacant : a.Vacant queue) : a'.jobs = a.jobs := by
  refine h.preserves (P := fun b => b.jobs = a.jobs) (fun b e c he hstep hb => ?_) rfl
  have hnone : ∀ {id : String} {js : JobState}, b.jobs id = some js → js.content.queue.1 ≠ queue :=
    fun hJ => hvacant _ _ (hb ▸ hJ)
  rcases hevs e he with ⟨id, rfl⟩ | ⟨id, key, record, rfl⟩ | ⟨name, -, rfl⟩
  · cases hstep with
    | purge hJ => exact absurd rfl (hnone hJ)
  · cases hstep with
    | discard hJ => exact absurd rfl (hnone hJ)
  · cases hstep
    exact hb

/-- The same jobs have the same rows. -/
theorem Represents.sameJobs {a' : Image} {rows rows' : Rows} {idx idx' : Indexes}
    (h : Represents a rows idx) (h' : Represents a' rows' idx') (hjobs : a'.jobs = a.jobs) :
    rows.SameJobs rows' := by
  have hrepr := hjobs ▸ h'.jobs
  exact ⟨hrepr.body.jobs.ext h.jobs.body.jobs, hrepr.body.payloads.ext h.jobs.body.payloads,
    hrepr.dead.rows.ext h.jobs.dead.rows⟩

/-- A chunk removes no job and no dead letter from a queue without any. -/
theorem sameJobs_of_chunk {now : Int64} {resp : ℕ} {run run' : CycleRun}
    (h : run.tx.server.Shows a) (hq : FitsPrefix queue) (hvacant : a.Vacant queue)
    (hrun : applyCommand now (.op (purgeRequest queue purgeChunk) resp) run = (.ok (), run')) :
    run.tx.rows.SameJobs run'.tx.rows := by
  have hstamp : (purgeRequest queue purgeChunk).stamp now = .purgeQueueChunk queue 1000 := by
    rw [purgeRequest_eq]
    rfl
  have hfresh : a.Fresh (Op.purgeQueueChunk queue 1000).jobs := ⟨List.nodup_nil, by simp [Op.jobs]⟩
  have hwf : (Op.purgeQueueChunk queue 1000).WellFormed := hq
  simp only [applyCommand, hstamp] at hrun
  cases hx : applyOp (.purgeQueueChunk queue 1000) run.tx with
  | ok r tx =>
    simp only [hx] at hrun
    obtain ⟨-, rfl⟩ := Prod.mk.inj hrun
    obtain ⟨evs, a', hturn, -⟩ := applyOp_turn h hwf hfresh hx
    have hevs : ∀ e ∈ evs, PurgesQueue queue e := fun e he => by
      obtain ⟨op, r', hcall, hmakes⟩ := hturn.explained.exists_op he
      obtain ⟨rfl, -⟩ := Call.answered.inj hcall
      exact hmakes
    exact Represents.sameJobs h hturn.shows (jobs_eq_of_purges hturn.events hevs hvacant)
  | error e tx =>
    simp only [hx] at hrun
    split_ifs at hrun with hcode
    · cases hrun
    · obtain ⟨-, rfl⟩ := Prod.mk.inj hrun
      obtain ⟨hserver, -⟩ := applyOp_refused h hwf hfresh hx hcode
      have hrows : tx.rows = run.tx.rows := congrArg Server.rows hserver
      exact ⟨congrArg Rows.jobs hrows, congrArg Rows.payloads hrows,
        congrArg Rows.deadLetter hrows⟩

/-- The handler keeps what it relies on, over any sequence of steps in time by which it is not
misled. -/
theorem sound_of_informedSteps {rounds : List Round} {resp : ℕ} {labels : List DeleteLabel}
    {s : Server × Deleting}
    (htrace : Trace (InformedStep queue resp) (Server.after {} rounds, .closing) labels s)
    (hadm : AdmissibleRounds (rounds ++ labels.map DeleteLabel.round)) :
    ∃ a, s.1.Shows a ∧
      a.Knows (jobIdsOf ((rounds ++ labels.map DeleteLabel.round).flatMap Round.ops)) ∧
      s.2.Sound queue a := by
  refine htrace.history (P := fun labels s =>
    AdmissibleRounds (rounds ++ labels.map DeleteLabel.round) → ∃ a, s.1.Shows a ∧
      a.Knows (jobIdsOf ((rounds ++ labels.map DeleteLabel.round).flatMap Round.ops)) ∧
      s.2.Sound queue a) (fun hadm => ?_) (fun labels label s s' _ ih hstep hadm => ?_) hadm
  · rw [List.map_nil, List.append_nil] at hadm ⊢
    obtain ⟨a, hshows, hknows⟩ := exists_shows_after hadm
    exact ⟨a, hshows, hknows, trivial⟩
  · rw [List.map_append, List.map_singleton, ← List.append_assoc] at hadm ⊢
    obtain ⟨hwf, hfresh⟩ := hadm.last
    obtain ⟨a, hshows, hknows, hsound⟩ := ih hadm.of_append
    rw [AdmissibleRounds.jobIdsOf_concat]
    exact hstep.step.sound hstep.informed hshows hknows hwf hfresh hsound

/-- While a queue is deleted without `purge`, among whatever other clients do, the chunks of the
handler remove no job and no dead letter, unless the handler is misled about the depths of the
queue. -/
theorem deleting_destroys_nothing {rounds : List Round} {resp : ℕ} {labels : List DeleteLabel}
    {s : Server × Deleting} {env : CycleEnv} {before after : List Command} {run run' : CycleRun}
    (hadm : AdmissibleRounds (rounds ++ labels.map DeleteLabel.round ++
      [.rpc env (before ++ .op (purgeRequest queue purgeChunk) resp :: after)]))
    (htrace : Trace (InformedStep queue resp) (Server.after {} rounds, .closing) labels s)
    (hchunk : OwnChunk queue resp s env before after run run') :
    run.tx.rows.SameJobs run'.tx.rows := by
  obtain ⟨⟨s', hserved⟩, htimely, hearlier, happlied⟩ := hchunk
  obtain ⟨hwf, hfresh⟩ := hadm.last
  rw [Round.ops, stampedOps_append] at hwf hfresh
  rw [jobIdsOf_append, ← List.append_assoc] at hfresh
  have hfirst := (List.nodup_append.mp hfresh).1
  obtain ⟨a, hshows, hknows, hsound⟩ := sound_of_informedSteps htrace hadm.of_append
  obtain ⟨server, d⟩ := s
  cases hserved with
  | own hcmd _ hspares =>
    -- only the loop sends a chunk
    obtain ⟨loop, rfl⟩ : ∃ loop, d = .draining loop := by
      cases d with
      | draining loop => exact ⟨loop, rfl⟩
      | closing | checking | opening | finished => cases hcmd
    obtain ⟨⟨deadline, hclosing⟩, hvacant⟩ := hsound
    obtain ⟨turns, b, hcalls, hturns, hshows', -, -⟩ := applyCommands_turns hearlier hshows hknows
      (fun op hop => hwf op (List.mem_append_left _ hop)) hfirst
    have hkeeps := Op.keeps_of_stampedOps fun cmd hcmd op hop =>
      (hspares cmd (List.mem_append_left _ hcmd) op hop).keeps_stamp env.now
    obtain ⟨-, hstill⟩ := guarded_of_cycleCalls hcalls hturns
      (fun op hop => ⟨hop, hkeeps op hop⟩) (oneStamp_stampedOps env.now before)
      ⟨deadline, hclosing, htimely deadline ((hshows.metadata.closing queue).trans hclosing)⟩
    have hq : FitsPrefix queue := by
      have hpurge := hwf _ (List.mem_append_right _ (List.mem_cons_self ..))
      exact hpurge
    exact sameJobs_of_chunk hshows' hq (hstill hvacant) happlied

end Chunks

/-- One dead letter, of a job that was nacked at once. -/
def deadEmail : List Round :=
  let env (now : Int64) : CycleEnv :=
    { now, metricsEnabled := false, faults := fun _ => none, commitFails := false }
  let job : PreparedJob :=
    { id := "a"
      req := { queue := "emails", jobType := "send" }
      limits := { priority := 5, maxAttempts := 1, dedupWindowMs := 60000 } }
  [.rpc (env 1000) [.op (.enqueue [job] 0) 1, .op (.reserve ["emails"] 500 1 0) 2],
    .rpc (env 1200) [.op (.nack
      { jobId := "a", attempt := 1, retry := some { strategy := some .deadLetter } } 0 true 0) 3]]

/-- The cycle that closes the queue. -/
def closingCycle : CycleEnv :=
  { now := 3000, metricsEnabled := false, faults := fun _ => none, commitFails := false }

/-- The cycle that answers the request for the depths, and does not commit. -/
def failingCycle : CycleEnv := { closingCycle with now := 4000, commitFails := true }

theorem Rows.SameJobs.size_deadLetter {rows rows' : Rows} (h : rows.SameJobs rows') :
    rows'.deadLetter.size = rows.deadLetter.size := congrArg ExtTreeMap.size h.2.2

section Examples

variable [Prost]

/-- The handler is alone in the cycle that closes the queue, and the last in the cycle that finds it
empty. -/
theorem steps_until_chunk (server : Server) (queue : String) (resp : ℕ) (first second : CycleEnv)
    (cmds : List Command) (hchannel : ∀ other ∈ cmds, other.resp ≠ resp)
    (hspares : ∀ other ∈ cmds, ∀ op, other.op? = some op → op.Spares queue)
    (hclose : (resp, .op (.ok .closeQueue)) ∈
      (runRpcCycle first server [.op (closeRequest queue 0) resp]).replies)
    (hdepths : (resp, .queueDepths (.ok noDepths)) ∈
      (runRpcCycle second (runRpcCycle first server [.op (closeRequest queue 0) resp]).server
        (cmds ++ [.queueDepths queue resp])).replies) :
    DeleteStep false queue resp (server, .closing)
        (.own first [] (.op (closeRequest queue 0) resp) [])
        ((runRpcCycle first server [.op (closeRequest queue 0) resp]).server, .checking) ∧
      DeleteStep false queue resp
        ((runRpcCycle first server [.op (closeRequest queue 0) resp]).server, .checking)
        (.own second cmds (.queueDepths queue resp) [])
        ((runRpcCycle second (runRpcCycle first server [.op (closeRequest queue 0) resp]).server
          (cmds ++ [.queueDepths queue resp])).server, .draining (.chunk 0)) := by
  have hnone : ∀ other ∈ ([] : List Command), other.resp ≠ resp := by simp
  have hnone' : ∀ other ∈ ([] : List Command), ∀ op, other.op? = some op → op.Spares queue := by
    simp
  have hclosing : DeleteStep false queue resp (server, .closing)
      (.own first [] (.op (closeRequest queue 0) resp) [])
      (_, Deleting.closing.resume false (.op (.ok .closeQueue))) :=
    .own rfl hnone hnone' hclose
  have hchecking : DeleteStep false queue resp (_, .checking)
      (.own second cmds (.queueDepths queue resp) [])
      (_, Deleting.checking.resume false (.queueDepths (.ok noDepths))) :=
    .own rfl (by rwa [List.append_nil]) (by rwa [List.append_nil]) hdepths
  exact ⟨hclosing, hchecking⟩

/-- The handler is alone in the cycle with its first chunk. -/
theorem ownChunk_of_reply (server : Server) (queue : String) (resp : ℕ) (env : CycleEnv)
    (reply : Reply) (hreply : (resp, reply) ∈
      (runRpcCycle env server [.op (purgeRequest queue purgeChunk) resp]).replies)
    (hok : (applyCommand env.now (.op (purgeRequest queue purgeChunk) resp)
      { tx := beginCycle env server }).1 = .ok ()) :
    OwnChunk queue resp (server, .draining (.chunk 0)) env [] [] { tx := beginCycle env server }
      (applyCommand env.now (.op (purgeRequest queue purgeChunk) resp)
        { tx := beginCycle env server }).2 :=
  ⟨⟨_, .own rfl (fun _ hmem => absurd hmem List.not_mem_nil)
    (fun _ hmem => absurd hmem List.not_mem_nil) hreply⟩,
    fun _ _ _ hop => absurd hop List.not_mem_nil, rfl, Prod.ext hok rfl⟩

end Examples

open WireFormat in
/-- Another client drains the dead letters in the cycle that answers the request for the depths.
The cycle does not commit, and the handler goes on to purge a queue that still has its dead
letter. -/
theorem deleting_destroys_deadEmail :
    ∃ (labels : List DeleteLabel) (s : Server × Deleting) (env : CycleEnv) (run run' : CycleRun),
      AdmissibleRounds (deadEmail ++ labels.map DeleteLabel.round ++
        [.rpc env ([] ++ .op (purgeRequest "emails" purgeChunk) 0 :: [])]) ∧
      Trace (TimelyStep "emails" 0) (Server.after {} deadEmail, .closing) labels s ∧
      OwnChunk "emails" 0 s env [] [] run run' ∧
      run.tx.rows.deadLetter.size = 1 ∧ run'.tx.rows.deadLetter.size = 0 ∧
      ¬ run.tx.rows.SameJobs run'.tx.rows := by
  have hspares : ∀ other ∈ [Command.op (.drainDeadLetters (some "emails") 10 100) 1],
      ∀ op, other.op? = some op → op.Spares "emails" := by
    intro other hother op hop
    rw [List.mem_singleton] at hother
    subst hother
    obtain rfl := Option.some.inj hop
    trivial
  obtain ⟨hclosing, hchecking⟩ := steps_until_chunk (Server.after {} deadEmail) "emails" 0
    closingCycle failingCycle _ (by decide) hspares (by decide +kernel) (by decide +kernel)
  have hchunk := ownChunk_of_reply (runRpcCycle failingCycle (runRpcCycle closingCycle
      (Server.after {} deadEmail) [.op (closeRequest "emails" 0) 0]).server
      ([.op (.drainDeadLetters (some "emails") 10 100) 1] ++ [.queueDepths "emails" 0])).server
    "emails" 0 { closingCycle with now := 5000 } (.op (.ok (.purgeQueueChunk ⟨1, false⟩)))
    (by decide +kernel) (by decide +kernel)
  refine ⟨_, _, _, _, _, ?_, .cons ⟨hclosing, ?_⟩ (.cons ⟨hchecking, ?_⟩ (.nil _)), hchunk,
    ?_, ?_, ?_⟩
  · exact ⟨by decide, by decide⟩
  · exact fun op hop => absurd hop List.not_mem_nil
  · intro deadline _ op hop now hnow
    obtain rfl : op = .drainDeadLetters (some "emails") 10 100 := List.mem_singleton.mp hop
    cases hnow
  · decide +kernel
  · decide +kernel
  · exact fun hsame => absurd hsame.size_deadLetter (by decide +kernel)

/-- A job with an idempotency key. -/
def keyedEmail (id : String) : PreparedJob where
  id
  req := { queue := "emails", jobType := "send", idempotencyKey := "k" }
  limits := { priority := 5, maxAttempts := 1, dedupWindowMs := 60000 }

/-- A queue of which only a dedup record is left. -/
def ackedEmail : List Round :=
  [.rpc { closingCycle with now := 1000 }
    [.op (.enqueue [keyedEmail "a"] 0) 1, .op (.reserve ["emails"] 500 1 0) 2, .op (.ack "a" 1) 3]]

open WireFormat in
/-- Another client is refused while the queue is deleted, and the only chunk removes the dedup
record. -/
theorem deleting_destroys_nothing_ackedEmail :
    ∃ (labels : List DeleteLabel) (s : Server × Deleting) (env : CycleEnv) (run run' : CycleRun),
      Trace (InformedStep "emails" 0) (Server.after {} ackedEmail, .closing) labels s ∧
      OwnChunk "emails" 0 s env [] [] run run' ∧
      run.tx.rows.dedup.size = 1 ∧ run'.tx.rows.dedup.size = 0 ∧
      run.tx.rows.SameJobs run'.tx.rows := by
  have hspares : ∀ other ∈ [Command.op (.enqueue [keyedEmail "b"] 0) 1],
      ∀ op, other.op? = some op → op.Spares "emails" := by
    intro other hother op hop
    rw [List.mem_singleton] at hother
    subst hother
    obtain rfl := Option.some.inj hop
    trivial
  obtain ⟨hclosing, hchecking⟩ := steps_until_chunk (Server.after {} ackedEmail) "emails" 0
    closingCycle { closingCycle with now := 4000 } _ (by decide) hspares (by decide +kernel)
    (by decide +kernel)
  have htombstone : (runRpcCycle closingCycle (Server.after {} ackedEmail)
      [.op (closeRequest "emails" 0) 0]).server.indexes.closing["emails"]? = some 33000 := by
    decide +kernel
  have htimely : Timely "emails" ((runRpcCycle closingCycle (Server.after {} ackedEmail)
      [.op (closeRequest "emails" 0) 0]).server, .checking)
      (.own { closingCycle with now := 4000 } [.op (.enqueue [keyedEmail "b"] 0) 1]
        (.queueDepths "emails" 0) []) := by
    intro deadline hdeadline op hop now hnow
    obtain rfl := Option.some.inj (htombstone.symm.trans hdeadline)
    obtain rfl : op = .enqueue [keyedEmail "b"] 4000 := List.mem_singleton.mp hop
    obtain rfl := Option.some.inj hnow
    decide
  have hinformed : ¬ Misled "emails" ((runRpcCycle closingCycle (Server.after {} ackedEmail)
      [.op (closeRequest "emails" 0) 0]).server, .checking)
      (.own { closingCycle with now := 4000 } [.op (.enqueue [keyedEmail "b"] 0) 1]
        (.queueDepths "emails" 0) []) :=
    fun h => absurd h.2.1 (by decide +kernel)
  have htrace : Trace (InformedStep "emails" 0) (Server.after {} ackedEmail, .closing) _ _ :=
    .cons ⟨⟨hclosing, fun _ hop => absurd hop List.not_mem_nil⟩, id⟩
      (.cons ⟨⟨hchecking, htimely⟩, hinformed⟩ (.nil _))
  have hchunk := ownChunk_of_reply (runRpcCycle { closingCycle with now := 4000 }
      (runRpcCycle closingCycle (Server.after {} ackedEmail)
        [.op (closeRequest "emails" 0) 0]).server
      ([.op (.enqueue [keyedEmail "b"] 0) 1] ++ [.queueDepths "emails" 0])).server
    "emails" 0 { closingCycle with now := 5000 } (.op (.ok (.purgeQueueChunk ⟨1, false⟩)))
    (by decide +kernel) (by decide +kernel)
  exact ⟨_, _, _, _, _, htrace, hchunk, by decide +kernel, by decide +kernel,
    deleting_destroys_nothing ⟨by decide, by decide⟩ htrace hchunk⟩

end Sepp
