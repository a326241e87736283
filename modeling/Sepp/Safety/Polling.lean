import Sepp.Api.LongPoll
import Sepp.Run.Outcomes
import Sepp.Safety.Cycles
import Sepp.Wire.Codec

/-!
# No handler sleeps on ready jobs

A handler parks on an empty reply to a reserve that it sent after it had enabled its notifiers. When
its cycle is over, each queue of the handler is without ready jobs, or is still to be woken: a job
that became ready after the reserve was noted by the cycle. A later cycle wakes the queues in which
jobs have become ready, and the notifier that it finds in the map is the one that the handler holds,
since a notifier that is held is never pruned. So between two cycles a parked handler that was not
notified has missed nothing.

## Main definitions

* `Server.NoneReady` — no ready job of a queue.
* `PollState.Sound` — what holds of the handlers, the channel and the committer at any time.

## Main results

* `Round.noneReady` — a queue that gets ready jobs in a round is woken.
* `PollStep.sound` — each step keeps what holds.
* `no_lost_wakeup` — a parked handler that was not notified has no ready jobs to miss.
-/

open Std

namespace Sepp

/-! ### Queues that get ready jobs -/

/-- The ready index has no row of the queue. -/
def Server.NoneReady (server : Server) (queue : String) : Prop :=
  ∀ key ∈ server.indexes.ready.keys, readQueue key ≠ some queue

/-- No job of the queue is ready. -/
def Image.NoneReady (a : Image) (queue : String) : Prop :=
  ∀ id js attempt, a.jobs id = some js → js.place = .ready attempt → js.content.queue.1 ≠ queue

section Ready

variable [Prost] {a a' : Image} {e : Event} {evs : List Event} {queue : String}
  {server server' : Server} {ids : List String}

theorem Server.Shows.noneReady_iff (h : server.Shows a) (queue : String) :
    server.NoneReady queue ↔ a.NoneReady queue := by
  constructor
  · intro hnone id js attempt hJ hp hqueue
    refine hnone (js.readyKey id) ?_ ?_
    · rw [ExtTreeMap.mem_iff_isSome_getElem?, h.jobs.get_ready_entry hJ hp]
      rfl
    · rw [JobState.readyKey, ReadyKey.readQueue_encode js.content.queue.2]
      exact congrArg some hqueue
  · intro hnone key hkey hread
    rw [ExtTreeMap.mem_iff_isSome_getElem?, Option.isSome_iff_exists] at hkey
    obtain ⟨attempt, hget⟩ := hkey
    obtain ⟨id, js, hJ, hp, rfl⟩ := h.jobs.of_ready_entry hget
    rw [JobState.readyKey, ReadyKey.readQueue_encode js.content.queue.2] at hread
    exact hnone id js attempt hJ hp (Option.some.inj hread)

/-- A queue gets a ready job by an event that says so. -/
theorem Step.noneReady (h : Step a e a') (hnone : a.NoneReady queue)
    (he : e.readies ≠ some queue) : a'.NoneReady queue := by
  have hset : ∀ {id : String} {x : Option JobState},
      (∀ js attempt, x = some js → js.place = .ready attempt → js.content.queue.1 ≠ queue) →
      (a.setJob id x).NoneReady queue := by
    intro id x hx id' js attempt hJ hp
    rw [Image.setJob_jobs] at hJ
    by_cases hid : id' = id
    · rw [hid, Function.update_self] at hJ
      exact hx js attempt hJ hp
    · rw [Function.update_of_ne hid] at hJ
      exact hnone id' js attempt hJ hp
  cases h with
  | @insert job now hq =>
    have hinserted : (a.setJob job.id (some (job.fresh hq now))).NoneReady queue := by
      refine hset fun js attempt hjs hp hqueue => he ?_
      obtain rfl := Option.some.inj hjs
      rw [Event.readies, show job.firstPlace now = .ready attempt from hp]
      exact congrArg some hqueue
    intro id js attempt hJ
    rw [Image.rememberJob_jobs] at hJ
    exact hinserted id js attempt hJ
  | retry hJ hp hleft delayed =>
    refine hset fun js attempt hjs hready hqueue => he ?_
    obtain rfl := Option.some.inj hjs
    cases delayed with
    | none => exact congrArg some hqueue
    | some deadline => cases hready
  | promote | redeliver | requeue =>
    refine hset fun js attempt hjs _ hqueue => he ?_
    obtain rfl := Option.some.inj hjs
    exact congrArg some hqueue
  | lease | extend =>
    refine hset fun js attempt hjs hready => ?_
    obtain rfl := Option.some.inj hjs
    cases hready
  | @bury _ _ _ _ hJ _ _ _ kept =>
    refine hset fun js attempt hjs hready => ?_
    split_ifs at hjs
    obtain rfl := Option.some.inj hjs
    cases hready
  | ack | discard | purge => exact hset fun js attempt hjs => by cases hjs
  | hit | full | closed | forget | purgeDedup | close | reopen | lapse | append => exact hnone

theorem noneReady_of_trace (h : Trace Step a evs a') (hnone : a.NoneReady queue) :
    a'.NoneReady queue ∨ ∃ e ∈ evs, e.readies = some queue := by
  refine h.preserves (P := fun b => b.NoneReady queue ∨ ∃ e ∈ evs, e.readies = some queue)
    (fun b e c he hstep hb => ?_) (.inl hnone)
  by_cases hready : e.readies = some queue
  · exact .inr ⟨e, he, hready⟩
  · exact hb.imp_left fun hb => hstep.noneReady hb hready

/-- A queue that gets ready jobs in a round is woken. -/
theorem Round.noneReady (round : Round) (h : server.Shows a) (hknows : a.Knows ids)
    (hwf : ∀ op ∈ round.ops, op.WellFormed) (hfresh : (ids ++ jobIdsOf round.ops).Nodup) :
    ∃ a', (round.run server).server.Shows a' ∧ a'.Knows (ids ++ jobIdsOf round.ops) ∧
      ∀ queue, server.NoneReady queue →
        (round.run server).server.NoneReady queue ∨ queue ∈ (round.run server).wakes := by
  obtain ⟨turns, a', -, htrace, hshows, hknows', hreports⟩ :=
    round.exists_reported_turns h hknows hwf hfresh
  refine ⟨a', hshows, hknows', fun queue hnone => ?_⟩
  rw [h.noneReady_iff] at hnone
  rw [hshows.noneReady_iff]
  rcases noneReady_of_trace (events_of_turns htrace) hnone with hstill | ⟨e, he, hready⟩
  · exact .inl hstill
  rcases hreports with ⟨hnil, -, -⟩ | ⟨c, hrec, -, hwakes⟩
  · rw [hnil] at he
    cases he
  · rw [hwakes]
    exact .inr (ExtTreeSet.mem_toList.mpr (hrec.readied e he queue hready))

/-- An empty reserve has found no ready job in any of its queues. -/
theorem Server.Shows.noneReady_of_reserved (h : server.Shows a) {queues : List String}
    {leaseMs maxJobs : UInt64} {now : Int64} (hmax : 1 ≤ maxJobs)
    (hstep : CallStep server
      (.answered (.reserve queues leaseMs maxJobs now) (.ok (.reserve []))) server') :
    ∀ queue ∈ queues, a.NoneReady queue := by
  have hreal : Realizes (applyOp (.reserve queues leaseMs maxJobs now)) a _ :=
    Realizes.wrap OpOutcome.reserve
      (applyReserve_realizes a queues leaseMs maxJobs.toNat now)
  obtain ⟨evs, a', htrace, -, jobs, hjobs, rfl, hdone, -⟩ := h.callStep_of_realizes hreal hstep
  obtain rfl := OpOutcome.reserve.inj hjobs
  cases htrace
  have hpos : ([] : List Job).length < maxJobs.toNat := UInt64.le_iff_toNat_le.mp hmax
  intro queue hqueue id js attempt hJ hp hown
  refine hdone hpos queue hqueue id js attempt hJ hp ?_
  rw [← hown]
  exact ⟨_, rfl⟩

variable {env : CycleEnv} {rpcs : List Command} {resp : ℕ} {call : ReserveCall}

/-- After the cycle of an empty reserve each of its queues is without ready jobs, or is woken. -/
theorem noneReady_of_reply (h : server.Shows a) (hknows : a.Knows ids)
    (hwf : ∀ op ∈ stampedOps env.now rpcs, op.WellFormed)
    (hfresh : (ids ++ jobIdsOf (stampedOps env.now rpcs)).Nodup)
    (hown : ∀ cmd ∈ rpcs, cmd.resp = resp → cmd = .op call.op resp)
    (hreply : (resp, .op (.ok (.reserve []))) ∈ (runRpcCycle env server rpcs).replies) :
    ∀ queue ∈ call.queues, (runRpcCycle env server rpcs).server.NoneReady queue ∨
      queue ∈ (runRpcCycle env server rpcs).wakes := by
  obtain ⟨run, hrun, hcommit, hparked⟩ := parked_of_reply hreply
  obtain ⟨earlier, op, later, mid, tx, rfl, hearlier, hop⟩ :=
    parked_of_applyCommands hrun hparked List.not_mem_nil
  obtain ⟨rfl, -⟩ := Command.op.inj (hown (.op op resp) (by simp) rfl)
  obtain ⟨mid', turns, b, turns', a', hmid', -, htrace, hshowsMid, hcalls, htrace', hshows', -,
    hrec, hrec'⟩ := applyCommands_turns_append hrun h hknows hwf hfresh
  obtain rfl : mid = mid' := congrArg Prod.snd (hearlier.symm.trans hmid')
  simp only [cycleCalls, hop, List.map_cons] at hcalls
  obtain ⟨t, rest, rfl, hcall, -⟩ := List.map_eq_cons_iff.mp hcalls
  -- the reserve found nothing, and the operations after it note what they make ready
  have hfound : ∀ queue ∈ call.queues, b.NoneReady queue := by
    cases htrace' with
    | cons hturn _ =>
      have hstep := hturn.call
      rw [hcall] at hstep
      exact hshowsMid.noneReady_of_reserved call.one_le_maxJobs hstep
  have hevents := (events_of_turns htrace).append (events_of_turns htrace')
  have hend : commitCycle env server run.tx = (.ok (), run.tx.server) := by
    rcases commitCycle_cases env h hshows' hevents (hrec.append hrec') with ⟨hfail, -, -⟩ | hok
    · rw [hfail] at hcommit
      cases hcommit
    · exact hok
  have hserver : (runRpcCycle env server (earlier ++ .op call.op resp :: later)).server =
      run.tx.server := by
    simp only [runRpcCycle, hrun, hend]
  have hwakes : (runRpcCycle env server (earlier ++ .op call.op resp :: later)).wakes =
      run.tx.cycle.newReady.toList := by
    simp only [runRpcCycle, hrun, hend]
    rfl
  intro queue hqueue
  rw [hserver, hwakes, hshows'.noneReady_iff]
  refine (noneReady_of_trace (events_of_turns htrace') (hfound queue hqueue)).imp_right ?_
  rintro ⟨e, he, hready⟩
  exact ExtTreeSet.mem_toList.mpr (hrec'.readied e he queue hready)

end Ready

/-! ### What holds at any time -/

/-- The notifiers are those that the map has for the queues. -/
def NotifiersOf (map : ExtTreeMap String Notify compare) (queues : List String)
    (notifies : List Notify) : Prop :=
  List.Forall₂ (fun queue notify => map[queue]? = some notify) queues notifies

namespace Handler

/-- The handler holds the notifiers of its queues, and its futures are on these. -/
def Bound (map : ExtTreeMap String Notify compare) : Handler → Prop
  | joining call notifies left => ∃ found, call.queues = found ++ left ∧
      NotifiersOf map found notifies
  | arming call notifies armed left => NotifiersOf map call.queues notifies ∧
      armed.map Notified.notify ++ left = notifies
  | reserving call notifies armed | parked call notifies armed =>
    NotifiersOf map call.queues notifies ∧ armed.map Notified.notify = notifies
  | absent | gone => True

/-- A command on the channel of the handler is its reserve. -/
def Sent (resp : ℕ) (cmd : Command) : Handler → Prop
  | reserving call _ _ => cmd = .op call.op resp
  | gone => True
  | _ => False

/-- There may be a reply to the handler. -/
def Awaits : Handler → Prop
  | reserving .. | gone => True
  | _ => False

/-- The handler waits to be notified. -/
def IsParked : Handler → Prop
  | parked .. => True
  | _ => False

/-- The handler has sent its reserve, and was not notified since it enabled its notifiers. -/
def Quiet (call : ReserveCall) : Handler → Prop
  | reserving call' _ armed | parked call' _ armed =>
    call' = call ∧ ∀ waiter ∈ armed, waiter.notified = false
  | _ => False

end Handler

/-- The commands and the replies on the channel of a handler. -/
def PollState.outstanding {n : ℕ} (s : PollState n) (i : Fin n) : ℕ :=
  (s.channel.map Command.resp).count i.val + (s.replies.map Prod.fst).count i.val

/-- What holds of the handlers, the channel and the committer at any time. -/
structure PollState.Sound {n : ℕ} (s : PollState n) : Prop where
  bound : ∀ i, (s.handlers i).Bound s.notifiers.map
  sent : ∀ i, ∀ cmd ∈ s.channel, cmd.resp = i.val → (s.handlers i).Sent i.val cmd
  awaits : ∀ i, ∀ reply ∈ s.replies, reply.1 = i.val → (s.handlers i).Awaits
  once : ∀ i, s.outstanding i ≤ 1
  quiet : ∀ i call, (s.handlers i).Quiet call →
    (s.handlers i).IsParked ∨ (i.val, .op (.ok (.reserve []))) ∈ s.replies →
    ∀ queue ∈ call.queues, s.server.NoneReady queue ∨ queue ∈ s.wakes

section Handlers

variable {n : ℕ} {s : PollState n} {i : Fin n} {handler before : Handler}

theorem Handler.Sent.awaits {resp : ℕ} {cmd : Command} (h : handler.Sent resp cmd) :
    handler.Awaits := by
  cases handler with
  | reserving | gone => trivial
  | absent | joining | arming | parked => exact h.elim

/-- Nothing is on the channel of a handler that does not wait for a reply. -/
theorem PollState.Sound.free (h : s.Sound) (hi : s.handlers i = before)
    (hfree : ¬ before.Awaits) :
    (∀ cmd ∈ s.channel, cmd.resp ≠ i.val) ∧ ∀ reply ∈ s.replies, reply.1 ≠ i.val := by
  subst hi
  exact ⟨fun cmd hcmd heq => hfree (h.sent i cmd hcmd heq).awaits,
    fun reply hreply heq => hfree (h.awaits i reply hreply heq)⟩

theorem PollState.Sound.outstanding_eq_zero (h : s.Sound) (hi : s.handlers i = before)
    (hfree : ¬ before.Awaits) : s.outstanding i = 0 := by
  obtain ⟨hchannel, hreplies⟩ := h.free hi hfree
  rw [outstanding, Nat.add_eq_zero_iff, List.count_eq_zero, List.count_eq_zero]
  constructor
  · intro hmem
    obtain ⟨cmd, hcmd, heq⟩ := List.mem_map.mp hmem
    exact hchannel cmd hcmd heq
  · intro hmem
    obtain ⟨reply, hreply, heq⟩ := List.mem_map.mp hmem
    exact hreplies reply hreply heq

@[simp]
theorem PollState.move_self (s : PollState n) (i : Fin n) (handler : Handler) :
    (s.move i handler).handlers i = handler := Function.update_self ..

theorem PollState.move_of_ne (s : PollState n) {i j : Fin n} (h : j ≠ i) (handler : Handler) :
    (s.move i handler).handlers j = s.handlers j := Function.update_of_ne h ..

/-- A handler moves to where it is neither quiet nor waits for a reply, unless it is gone. -/
theorem PollState.Sound.move (h : s.Sound) (hi : s.handlers i = before)
    (hbound : handler.Bound s.notifiers.map) (hawaits : handler = .gone ∨ ¬ before.Awaits)
    (hquiet : ∀ call, ¬ handler.Quiet call) : (s.move i handler).Sound where
  bound j := by
    by_cases hj : j = i
    · subst hj
      rwa [move_self]
    · rw [s.move_of_ne hj]
      exact h.bound j
  sent j cmd hcmd hresp := by
    by_cases hj : j = i
    · subst hj
      rw [move_self]
      rcases hawaits with rfl | hfree
      · trivial
      · exact absurd hresp ((h.free hi hfree).1 cmd hcmd)
    · rw [s.move_of_ne hj]
      exact h.sent j cmd hcmd hresp
  awaits j reply hreply hresp := by
    by_cases hj : j = i
    · subst hj
      rw [move_self]
      rcases hawaits with rfl | hfree
      · trivial
      · exact absurd hresp ((h.free hi hfree).2 reply hreply)
    · rw [s.move_of_ne hj]
      exact h.awaits j reply hreply hresp
  once := h.once
  quiet j call hj := by
    by_cases hij : j = i
    · subst hij
      rw [move_self] at hj
      exact absurd hj (hquiet call)
    · rw [s.move_of_ne hij] at hj ⊢
      exact h.quiet j call hj

/-- A notifier that a handler holds is held. -/
theorem PollState.mem_held {notify : Notify} (h : notify ∈ (s.handlers i).held) :
    notify ∈ s.held :=
  List.mem_flatMap.mpr ⟨i, List.mem_finRange i, h⟩

theorem NotifiersOf.get {notifiers : QueueNotifiers} {held notifies : List Notify}
    {queues : List String} {queue : String} (h : NotifiersOf notifiers.map queues notifies)
    (hheld : ∀ notify ∈ notifies, notify ∈ held) :
    NotifiersOf (notifiers.get held queue).2.map queues notifies := by
  induction h with
  | nil => exact .nil
  | cons hfirst _ ih =>
    exact .cons (QueueNotifiers.getElem?_get hfirst (hheld _ List.mem_cons_self))
      (ih fun notify hnotify => hheld notify (List.mem_cons_of_mem _ hnotify))

theorem NotifiersOf.exists_of_mem {map : ExtTreeMap String Notify compare} {queues : List String}
    {notifies : List Notify} {queue : String} (h : NotifiersOf map queues notifies)
    (hqueue : queue ∈ queues) : ∃ notify ∈ notifies, map[queue]? = some notify := by
  induction h with
  | nil => cases hqueue
  | cons hfirst _ ih =>
    rcases List.mem_cons.mp hqueue with rfl | hqueue
    · exact ⟨_, List.mem_cons_self, hfirst⟩
    · obtain ⟨notify, hmem, hget⟩ := ih hqueue
      exact ⟨notify, List.mem_cons_of_mem _ hmem, hget⟩

/-- A handler keeps the notifiers of its queues when any queue is looked up. -/
theorem Handler.Bound.get {notifiers : QueueNotifiers} {held : List Notify} {queue : String}
    (h : handler.Bound notifiers.map) (hheld : ∀ notify ∈ handler.held, notify ∈ held) :
    handler.Bound (notifiers.get held queue).2.map := by
  cases handler with
  | absent | gone => trivial
  | joining call notifies left =>
    obtain ⟨found, hqueues, hfound⟩ := h
    exact ⟨found, hqueues, hfound.get hheld⟩
  | arming | reserving | parked => exact ⟨h.1.get hheld, h.2⟩

/-- Looking up a queue leaves the handlers what they hold. -/
theorem PollState.Sound.get (h : s.Sound) (queue : String) :
    { s with notifiers := (s.notifiers.get s.held queue).2 }.Sound :=
  ⟨fun i => (h.bound i).get fun _ hnotify => mem_held hnotify, h.sent, h.awaits, h.once, h.quiet⟩

/-- Another client sends a command. -/
theorem PollState.Sound.client (h : s.Sound) {cmd : Command} (hresp : n ≤ cmd.resp) :
    { s with channel := s.channel ++ [cmd] }.Sound where
  bound := h.bound
  sent i cmd' hcmd' hi := by
    rcases List.mem_append.mp hcmd' with hmem | hmem
    · exact h.sent i cmd' hmem hi
    · rw [List.mem_singleton.mp hmem] at hi
      have hlt := i.isLt
      omega
  awaits := h.awaits
  once i := by
    have hne : cmd.resp ≠ i.val := by
      have hlt := i.isLt
      omega
    have honce := h.once i
    simp only [outstanding, List.map_append, List.map_cons, List.map_nil, List.count_append,
      List.count_singleton, beq_iff_eq, if_neg hne] at honce ⊢
    exact honce
  quiet := h.quiet

/-- A handler sends its reserve. -/
theorem PollState.Sound.send (h : s.Sound) {call : ReserveCall} {notifies : List Notify}
    {armed : List Notified} (hi : s.handlers i = .arming call notifies armed []) :
    ({ s with channel := s.channel ++ [Command.op call.op i] }.move i
      (.reserving call notifies armed)).Sound where
  bound j := by
    by_cases hj : j = i
    · subst hj
      have hbound := h.bound j
      rw [hi] at hbound
      rw [move_self]
      exact ⟨hbound.1, by simpa using hbound.2⟩
    · rw [move_of_ne _ hj]
      exact h.bound j
  sent j cmd hcmd hresp := by
    rcases List.mem_append.mp hcmd with hmem | hmem
    · have hj : j ≠ i := by
        rintro rfl
        exact (h.free hi id).1 cmd hmem hresp
      rw [move_of_ne _ hj]
      exact h.sent j cmd hmem hresp
    · obtain rfl := List.mem_singleton.mp hmem
      obtain rfl : i = j := Fin.val_injective hresp
      rw [move_self]
      rfl
  awaits j reply hreply hresp := by
    by_cases hj : j = i
    · subst hj
      rw [move_self]
      trivial
    · rw [move_of_ne _ hj]
      exact h.awaits j reply hreply hresp
  once j := by
    change ((s.channel ++ [Command.op call.op i]).map Command.resp).count j.val +
      (s.replies.map Prod.fst).count j.val ≤ 1
    have honce := h.once j
    rw [outstanding] at honce
    rw [List.map_append, List.count_append, List.map_singleton, List.count_singleton]
    by_cases hj : i = j
    · subst hj
      have hnone := h.outstanding_eq_zero hi id
      rw [outstanding] at hnone
      split_ifs <;> omega
    · rw [if_neg (by simpa [Command.resp, Fin.val_inj] using hj)]
      omega
  quiet j call' hj := by
    by_cases hij : j = i
    · subst hij
      rintro (hparked | hreply)
      · rw [move_self] at hparked
        exact hparked.elim
      · exact absurd rfl ((h.free hi id).2 _ hreply)
    · rw [move_of_ne _ hij] at hj ⊢
      exact h.quiet j call' hj

end Handlers

/-! ### The committer -/

section Replies

variable {n : ℕ} {s : PollState n} {resp : ℕ} {r : Reply} {rest : List (ℕ × Reply)}

theorem Handler.Bound.receive {handler : Handler} {map : ExtTreeMap String Notify compare}
    (h : handler.Bound map) (r : Reply) : (handler.receive r).Bound map := by
  rw [Handler.receive.eq_def]
  split
  · exact h
  · trivial
  · exact h

/-- A handler that is quiet after a reply got an empty one while it was quiet. -/
theorem Handler.Quiet.of_receive {handler : Handler} {call : ReserveCall}
    (h : (handler.receive r).Quiet call) (hawaits : handler.Awaits) :
    handler.Quiet call ∧ r = .op (.ok (.reserve [])) := by
  cases handler with
  | absent | joining | arming | parked => exact hawaits.elim
  | gone => exact h.elim
  | reserving call' notifies armed =>
    rcases r with (status | outcome) | page | depths
    · exact h.elim
    · cases outcome with
      | reserve jobs =>
        cases jobs with
        | nil => exact ⟨h, rfl⟩
        | cons => exact h.elim
      | _ => exact h.elim
    · exact h.elim
    · exact h.elim

/-- A reply reaches its handler. -/
theorem PollState.Sound.reply (h : s.Sound) (hreplies : s.replies = (resp, r) :: rest) :
    ({ s with replies := rest }.deliver resp r).Sound := by
  have hin : ∀ reply ∈ rest, reply ∈ s.replies := fun reply hreply => by
    rw [hreplies]
    exact List.mem_cons_of_mem _ hreply
  have hhandler : ∀ j : Fin n, ({ s with replies := rest }.deliver resp r).handlers j =
      if j.val = resp then (s.handlers j).receive r else s.handlers j := fun _ => rfl
  have hcount : ∀ j : Fin n, s.outstanding j = (s.channel.map Command.resp).count j.val +
      ((rest.map Prod.fst).count j.val + if resp = j.val then 1 else 0) := by
    intro j
    rw [outstanding, hreplies, List.map_cons, List.count_cons]
    simp only [beq_iff_eq]
  -- the reply was the only thing on its channel
  have hlast : ∀ j : Fin n, j.val = resp → (∀ cmd ∈ s.channel, cmd.resp ≠ j.val) ∧
      ∀ reply ∈ rest, reply.1 ≠ j.val := by
    intro j hj
    have honce := h.once j
    rw [hcount, if_pos hj.symm] at honce
    refine ⟨fun cmd hcmd heq => ?_, fun reply hreply heq => ?_⟩
    · have hmem : j.val ∈ s.channel.map Command.resp := List.mem_map.mpr ⟨cmd, hcmd, heq⟩
      have hpos := List.count_pos_iff.mpr hmem
      omega
    · have hmem : j.val ∈ rest.map Prod.fst := List.mem_map.mpr ⟨reply, hreply, heq⟩
      have hpos := List.count_pos_iff.mpr hmem
      omega
  constructor
  · intro j
    rw [hhandler]
    split_ifs
    · exact (h.bound j).receive r
    · exact h.bound j
  · intro j cmd hcmd hresp
    rw [hhandler]
    split_ifs with hj
    · exact absurd hresp ((hlast j hj).1 cmd hcmd)
    · exact h.sent j cmd hcmd hresp
  · intro j reply hreply hresp
    rw [hhandler]
    split_ifs with hj
    · exact absurd hresp ((hlast j hj).2 reply hreply)
    · exact h.awaits j reply (hin reply hreply) hresp
  · intro j
    have honce := h.once j
    rw [hcount] at honce
    exact (Nat.add_le_add_left (Nat.le_add_right _ _) _).trans honce
  · intro j call hquiet hwhen
    rw [hhandler] at hquiet hwhen
    split_ifs at hquiet hwhen with hj
    · have hmem : (resp, r) ∈ s.replies := by
        rw [hreplies]
        exact List.mem_cons_self
      obtain ⟨hbefore, rfl⟩ := hquiet.of_receive (h.awaits j _ hmem hj.symm)
      exact h.quiet j call hbefore (.inr (hj ▸ hmem))
    · exact h.quiet j call hquiet (hwhen.imp_right (hin _))

theorem map_notify_notifyWaiters (notify : Notify) (armed : List Notified) :
    (notifyWaiters notify armed).map Notified.notify = armed.map Notified.notify := by
  rw [notifyWaiters, List.map_map]
  refine List.map_congr_left fun waiter _ => ?_
  rw [Function.comp_apply]
  split_ifs <;> rfl

/-- Futures that are not notified by a notifier are not on it. -/
theorem not_notified_of_notifyWaiters {notify : Notify} {armed : List Notified}
    (h : ∀ waiter ∈ notifyWaiters notify armed, waiter.notified = false) :
    ∀ waiter ∈ armed, waiter.notified = false ∧ waiter.notify ≠ notify := by
  intro waiter hwaiter
  have hwoken := h _ (List.mem_map_of_mem hwaiter)
  split_ifs at hwoken with heq
  exact ⟨hwoken, heq⟩

theorem Handler.Bound.wake {handler : Handler} {map : ExtTreeMap String Notify compare}
    (h : handler.Bound map) (notify : Notify) : (handler.wake notify).Bound map := by
  cases handler with
  | absent | joining | gone => exact h
  | arming | reserving | parked =>
    refine ⟨h.1, ?_⟩
    rw [map_notify_notifyWaiters]
    exact h.2

/-- A handler that is quiet after a wake was quiet, and the wake was not of one of its queues. -/
theorem Handler.Quiet.of_wake {handler : Handler} {call : ReserveCall} {notify : Notify}
    {map : ExtTreeMap String Notify compare} {queue : String}
    (h : (handler.wake notify).Quiet call) (hbound : handler.Bound map)
    (hqueue : map[queue]? = some notify) : handler.Quiet call ∧ queue ∉ call.queues := by
  have hmissed : ∀ {notifies : List Notify} {armed : List Notified},
      NotifiersOf map call.queues notifies → armed.map Notified.notify = notifies →
      (∀ waiter ∈ notifyWaiters notify armed, waiter.notified = false) →
      (∀ waiter ∈ armed, waiter.notified = false) ∧ queue ∉ call.queues := by
    rintro notifies armed hnotifies rfl hall
    have hquiet := not_notified_of_notifyWaiters hall
    refine ⟨fun waiter hwaiter => (hquiet waiter hwaiter).1, fun hmem => ?_⟩
    obtain ⟨notify', hheld, hnotify'⟩ := hnotifies.exists_of_mem hmem
    obtain ⟨waiter, hwaiter, rfl⟩ := List.mem_map.mp hheld
    exact (hquiet waiter hwaiter).2 (Option.some.inj (hnotify'.symm.trans hqueue))
  cases handler with
  | absent | joining | arming | gone => exact h.elim
  | reserving call' notifies armed =>
    obtain ⟨rfl, hall⟩ := h
    obtain ⟨hquiet, hother⟩ := hmissed hbound.1 hbound.2 hall
    exact ⟨⟨rfl, hquiet⟩, hother⟩
  | parked call' notifies armed =>
    obtain ⟨rfl, hall⟩ := h
    obtain ⟨hquiet, hother⟩ := hmissed hbound.1 hbound.2 hall
    exact ⟨⟨rfl, hquiet⟩, hother⟩

/-- A wake leaves the store as it is. -/
@[simp]
theorem PollState.wake_server (s : PollState n) (queue : String) :
    (s.wake queue).server = s.server := by
  rw [PollState.wake]
  split <;> rfl

/-- A queue is woken. -/
theorem PollState.Sound.wake (h : s.Sound) (queue : String) :
    ({ s with wakes := s.wakes.erase queue }.wake queue).Sound := by
  -- a queue of a quiet handler is still to be woken, unless it is this one
  have hleft : ∀ i call, (s.handlers i).Quiet call →
      (s.handlers i).IsParked ∨ (i.val, .op (.ok (.reserve []))) ∈ s.replies →
      queue ∉ call.queues → ∀ queue' ∈ call.queues,
        s.server.NoneReady queue' ∨ queue' ∈ s.wakes.erase queue := by
    intro i call hquiet hwhen hother queue' hqueue'
    refine (h.quiet i call hquiet hwhen queue' hqueue').imp_right fun hwakes => ?_
    refine (List.mem_erase_of_ne ?_).mpr hwakes
    rintro rfl
    exact hother hqueue'
  have hsent : ∀ {handler : Handler} {notify : Notify} {resp : ℕ} {cmd : Command},
      handler.Sent resp cmd → (handler.wake notify).Sent resp cmd := by
    intro handler notify resp cmd hsent
    cases handler <;> exact hsent
  have hawaits : ∀ {handler : Handler} {notify : Notify},
      handler.Awaits → (handler.wake notify).Awaits := by
    intro handler notify hawaits
    cases handler <;> exact hawaits
  have hparked : ∀ {handler : Handler} {notify : Notify},
      (handler.wake notify).IsParked → handler.IsParked := by
    intro handler notify hparked
    cases handler <;> exact hparked
  rw [PollState.wake]
  cases hmap : s.notifiers.map[queue]? with
  | some notify =>
    dsimp only
    refine ⟨fun i => (h.bound i).wake notify,
      fun i cmd hcmd hresp => hsent (h.sent i cmd hcmd hresp),
      fun i reply hreply hresp => hawaits (h.awaits i reply hreply hresp), h.once,
      fun i call hquiet hwhen => ?_⟩
    obtain ⟨hbefore, hother⟩ := hquiet.of_wake (h.bound i) hmap
    exact hleft i call hbefore (hwhen.imp_left hparked) hother
  | none =>
    dsimp only
    refine ⟨h.bound, h.sent, h.awaits, h.once, fun i call hquiet hwhen => ?_⟩
    refine hleft i call hquiet hwhen fun hmem => ?_
    -- the notifiers of a quiet handler are all in the map
    have hbound := h.bound i
    have hnotifies : ∃ notifies, NotifiersOf s.notifiers.map call.queues notifies := by
      cases hi : s.handlers i with
      | absent | joining | arming | gone =>
        rw [hi] at hquiet
        exact hquiet.elim
      | reserving | parked =>
        rw [hi] at hquiet hbound
        obtain ⟨rfl, -⟩ := hquiet
        exact ⟨_, hbound.1⟩
    obtain ⟨notifies, hnotifies⟩ := hnotifies
    obtain ⟨notify, -, hget⟩ := hnotifies.exists_of_mem hmem
    cases hmap.symm.trans hget

end Replies

section Steps

variable [Prost] {n : ℕ} {s s' : PollState n} {a : Image} {ids : List String}

/-- The replies of a cycle are on the channels of its commands. -/
theorem perm_resps_runRpcCycle (env : CycleEnv) (server : Server) (cmds : List Command) :
    ((runRpcCycle env server cmds).replies.map Prod.fst).Perm (cmds.map Command.resp) := by
  obtain ⟨inOrder, hperm, hall⟩ := answered_runRpcCycle env server cmds
  refine (hperm.map _).trans (List.Perm.of_eq ?_)
  clear hperm
  induction hall with
  | nil => rfl
  | cons hfirst _ ih => rw [List.map_cons, List.map_cons, ih, hfirst.1]

/-- A cycle of commands from the channel. -/
theorem PollState.Sound.rpc (h : s.Sound) (hidle : s.Idle) {env : CycleEnv}
    {rpcs rest : List Command} (hchannel : s.channel = rpcs ++ rest) (hshows : s.server.Shows a)
    (hknows : a.Knows ids) (hwf : ∀ op ∈ stampedOps env.now rpcs, op.WellFormed)
    (hfresh : (ids ++ jobIdsOf (stampedOps env.now rpcs)).Nodup)
    (hready : ∀ queue, s.server.NoneReady queue →
      (runRpcCycle env s.server rpcs).server.NoneReady queue ∨
        queue ∈ (runRpcCycle env s.server rpcs).wakes) :
    PollState.Sound
      { s with
        server := (runRpcCycle env s.server rpcs).server
        channel := rest
        replies := (runRpcCycle env s.server rpcs).replies
        wakes := (runRpcCycle env s.server rpcs).wakes } := by
  have hperm := perm_resps_runRpcCycle env s.server rpcs
  have hrpcs : ∀ cmd ∈ rpcs, cmd ∈ s.channel := fun cmd hcmd => by
    rw [hchannel]
    exact List.mem_append_left _ hcmd
  refine ⟨h.bound, fun i cmd hcmd hresp => h.sent i cmd ?_ hresp, fun i reply hreply hresp => ?_,
    fun i => ?_, fun i call hquiet hwhen queue hqueue => ?_⟩
  · rw [hchannel]
    exact List.mem_append_right _ hcmd
  · obtain ⟨cmd, hcmd, heq⟩ :=
      List.mem_map.mp (hperm.subset (List.mem_map_of_mem hreply : reply.1 ∈ _))
    exact (h.sent i cmd (hrpcs cmd hcmd) (heq.trans hresp)).awaits
  · have honce := h.once i
    rw [outstanding, hchannel, hidle.replies, List.map_append, List.count_append, List.map_nil,
      List.count_nil] at honce
    change (rest.map Command.resp).count i.val +
      ((runRpcCycle env s.server rpcs).replies.map Prod.fst).count i.val ≤ 1
    rw [hperm.count_eq]
    omega
  · -- a parked handler has missed nothing so far, and the reply of another was empty in this cycle
    by_cases hparked : (s.handlers i).IsParked
    · refine hready queue ((h.quiet i call hquiet (.inl hparked) queue hqueue).resolve_right ?_)
      rw [hidle.wakes]
      exact List.not_mem_nil
    · refine noneReady_of_reply hshows hknows hwf hfresh (fun cmd hcmd hresp => ?_)
        (hwhen.resolve_left hparked) queue hqueue
      have hsent := h.sent i cmd (hrpcs cmd hcmd) hresp
      cases hi : s.handlers i with
      | absent | joining | arming | gone =>
        simp only [hi] at hquiet
        exact hquiet.elim
      | parked =>
        rw [hi] at hparked
        exact absurd trivial hparked
      | reserving =>
        simp only [hi] at hquiet
        rw [hi] at hsent
        obtain ⟨rfl, -⟩ := hquiet
        exact hsent

omit [Prost] in
/-- A sweep cycle. -/
theorem PollState.Sound.sweep (h : s.Sound) (hidle : s.Idle) {server : Server}
    {wakes : List String}
    (hready : ∀ queue, s.server.NoneReady queue → server.NoneReady queue ∨ queue ∈ wakes) :
    PollState.Sound { s with server, wakes } where
  bound := h.bound
  sent := h.sent
  awaits := h.awaits
  once := h.once
  quiet i call hquiet hwhen queue hqueue := by
    refine hready queue ((h.quiet i call hquiet hwhen queue hqueue).resolve_right ?_)
    rw [hidle.wakes]
    exact List.not_mem_nil

/-- The operations that a step applies. -/
def PollLabel.ops (label : PollLabel) : List Op := (label.round?.map Round.ops).getD []

/-- Each step keeps what holds. -/
theorem PollStep.sound {label : PollLabel} (hstep : PollStep s label s') (h : s.Sound)
    (hshows : s.server.Shows a) (hknows : a.Knows ids) (hwf : ∀ op ∈ label.ops, op.WellFormed)
    (hfresh : (ids ++ jobIdsOf label.ops).Nodup) :
    s'.Sound ∧ ∃ a', s'.server.Shows a' ∧ a'.Knows (ids ++ jobIdsOf label.ops) := by
  have hsame : ∃ a', s.server.Shows a' ∧ a'.Knows (ids ++ jobIdsOf []) :=
    ⟨a, hshows, fun id hid => List.mem_append_left _ (hknows id hid)⟩
  cases hstep with
  | @start i call hi =>
    exact ⟨h.move hi ⟨[], rfl, .nil⟩ (.inr id) fun _ hquiet => hquiet, hsame⟩
  | @join i call notifies queue left hi =>
    obtain ⟨found, hqueues, hfound⟩ : (Handler.joining call notifies (queue :: left)).Bound
        (s.notifiers.get s.held queue).2.map := hi ▸ (h.get queue).bound i
    have hlooked : NotifiersOf (s.notifiers.get s.held queue).2.map [queue]
        [(s.notifiers.get s.held queue).1] := .cons QueueNotifiers.getElem?_get_self .nil
    have hbound : (Handler.joining call (notifies ++ [(s.notifiers.get s.held queue).1]) left).Bound
        (s.notifiers.get s.held queue).2.map :=
      ⟨found ++ [queue], by rw [hqueues, List.append_assoc, List.singleton_append],
        List.rel_append hfound hlooked⟩
    exact ⟨(h.get queue).move hi hbound (.inr id) fun _ hquiet => hquiet, hsame⟩
  | @joined i call notifies hi =>
    obtain ⟨found, hqueues, hfound⟩ : (Handler.joining call notifies []).Bound s.notifiers.map :=
      hi ▸ h.bound i
    rw [List.append_nil] at hqueues
    have hbound : (Handler.arming call notifies [] notifies).Bound s.notifiers.map :=
      ⟨hqueues ▸ hfound, rfl⟩
    exact ⟨h.move hi hbound (.inr id) fun _ hquiet => hquiet, hsame⟩
  | @enable i call notifies armed notify left hi =>
    obtain ⟨hnotifies, hleft⟩ : (Handler.arming call notifies armed (notify :: left)).Bound
        s.notifiers.map := hi ▸ h.bound i
    have hbound : (Handler.arming call notifies (armed ++ [{ notify : Notified }]) left).Bound
        s.notifiers.map :=
      ⟨hnotifies, by rw [List.map_append, List.append_assoc, ← hleft]; rfl⟩
    exact ⟨h.move hi hbound (.inr id) fun _ hquiet => hquiet, hsame⟩
  | send hi => exact ⟨h.send hi, hsame⟩
  | @again i call notifies armed hi hnotified =>
    obtain ⟨hnotifies, -⟩ : (Handler.parked call notifies armed).Bound s.notifiers.map :=
      hi ▸ h.bound i
    have hbound : (Handler.arming call notifies [] notifies).Bound s.notifiers.map :=
      ⟨hnotifies, rfl⟩
    exact ⟨h.move hi hbound (.inr id) fun _ hquiet => hquiet, hsame⟩
  | leave i => exact ⟨h.move rfl trivial (.inl rfl) fun _ hquiet => hquiet, hsame⟩
  | client hresp => exact ⟨h.client hresp, hsame⟩
  | @rpc env rpcs rest hidle hchannel =>
    obtain ⟨a', hshows', hknows', hready⟩ :=
      Round.noneReady (.rpc env rpcs) hshows hknows hwf hfresh
    exact ⟨h.rpc hidle hchannel hshows hknows hwf hfresh hready, a', hshows', hknows'⟩
  | @sweep env params hidle =>
    obtain ⟨a', hshows', hknows', hready⟩ :=
      Round.noneReady (.sweep env params) hshows hknows hwf hfresh
    exact ⟨h.sweep hidle hready, a', hshows', hknows'⟩
  | reply hreplies => exact ⟨h.reply hreplies, hsame⟩
  | @wake queue hreplies hqueue =>
    refine ⟨h.wake queue, ?_⟩
    rw [PollState.wake_server]
    exact hsame

omit [Prost] in
/-- Before any request comes in. -/
theorem PollState.Sound.init (server : Server) : ({ server } : PollState n).Sound where
  bound _ := trivial
  sent _ _ hcmd := absurd hcmd List.not_mem_nil
  awaits _ _ hreply := absurd hreply List.not_mem_nil
  once _ := Nat.zero_le 1
  quiet _ _ hquiet := hquiet.elim

/-- What holds at any time holds after any sequence of steps. -/
theorem sound_of_pollSteps {rounds : List Round} {labels : List PollLabel}
    (htrace : Trace PollStep ({ server := Server.after {} rounds } : PollState n) labels s)
    (hadm : AdmissibleRounds (rounds ++ labels.filterMap PollLabel.round?)) : s.Sound := by
  have hall : s.Sound ∧ ∃ a, s.server.Shows a ∧
      a.Knows (jobIdsOf ((rounds ++ labels.filterMap PollLabel.round?).flatMap Round.ops)) := by
    refine htrace.history (P := fun labels s =>
      AdmissibleRounds (rounds ++ labels.filterMap PollLabel.round?) →
        s.Sound ∧ ∃ a, s.server.Shows a ∧ a.Knows (jobIdsOf
          ((rounds ++ labels.filterMap PollLabel.round?).flatMap Round.ops)))
      (fun hadm => ?_) (fun labels label s s' _ ih hstep hadm => ?_) hadm
    · rw [List.filterMap_nil, List.append_nil] at hadm ⊢
      exact ⟨.init _, exists_shows_after hadm⟩
    · have hops : (rounds ++ (labels ++ [label]).filterMap PollLabel.round?).flatMap Round.ops =
          (rounds ++ labels.filterMap PollLabel.round?).flatMap Round.ops ++ label.ops := by
        rw [List.filterMap_append, ← List.append_assoc, List.flatMap_append]
        cases label <;> simp [PollLabel.ops, PollLabel.round?]
      obtain ⟨hwf, hfresh⟩ := hadm
      rw [hops] at hfresh ⊢
      rw [jobIdsOf_append] at hfresh ⊢
      have hwfOps : ∀ op ∈ (rounds ++ labels.filterMap PollLabel.round?).flatMap Round.ops ++
          label.ops, op.WellFormed := by
        intro op hop
        rw [← hops] at hop
        obtain ⟨round, hround, hop⟩ := List.mem_flatMap.mp hop
        exact hwf round hround op hop
      obtain ⟨hsound, a, hshows, hknows⟩ := ih ⟨fun round hround op hop =>
        hwfOps op (List.mem_append_left _ (List.mem_flatMap.mpr ⟨round, hround, hop⟩)),
        (List.nodup_append.mp hfresh).1⟩
      exact hstep.sound hsound hshows hknows
        (fun op hop => hwfOps op (List.mem_append_right _ hop)) hfresh
  exact hall.1

end Steps

section Claims

variable [Prost] {n : ℕ}

/-- Whatever the handlers, the other clients and the committer have done in whatever order: when
the committer is between two cycles, and a handler is parked none of whose futures was notified,
then none of its queues has a ready job. -/
theorem no_lost_wakeup {rounds : List Round} {labels : List PollLabel} {s : PollState n}
    {i : Fin n} {call : ReserveCall} {notifies : List Notify} {armed : List Notified}
    (hadm : AdmissibleRounds (rounds ++ labels.filterMap PollLabel.round?))
    (htrace : Trace PollStep { server := Server.after {} rounds } labels s) (hidle : s.Idle)
    (hparked : s.handlers i = .parked call notifies armed)
    (hquiet : ∀ waiter ∈ armed, waiter.notified = false) :
    ∀ queue ∈ call.queues, s.server.NoneReady queue := by
  have hsound := sound_of_pollSteps htrace hadm
  have hwaits : (s.handlers i).Quiet call := by
    rw [hparked]
    exact ⟨rfl, hquiet⟩
  have hdone : (s.handlers i).IsParked := by
    rw [hparked]
    trivial
  intro queue hqueue
  refine (hsound.quiet i call hwaits (.inl hdone) queue hqueue).resolve_right ?_
  rw [hidle.wakes]
  exact List.not_mem_nil

end Claims

/-! ### A race for one job -/

/-- A reserve of one email. -/
def emailCall : ReserveCall := ⟨["emails"], 30000, 1, UInt64.le_refl 1⟩

/-- An email is enqueued. -/
def oneEmail : List Round :=
  [.rpc { now := 500, metricsEnabled := true, faults := fun _ => none, commitFails := false }
    [.op (.enqueue [{
      id := "a"
      req := { queue := "emails", jobType := "send" }
      limits := { priority := 5, maxAttempts := 1, dedupWindowMs := 60000 } }] 0) 1]]

/-- Another client gets the email before a handler. -/
def emailRace : List Command := [.op emailCall.op 1, .op emailCall.op 0]

/-- The cycle of both. -/
def raceEnv : CycleEnv :=
  { now := 1000, metricsEnabled := true, faults := fun _ => none, commitFails := false }

/-- A handler that comes second parks on an empty reply. -/
theorem exists_parked [Prost] {server : Server} {r : Reply}
    (hreplies : (runRpcCycle raceEnv server emailRace).replies =
      [(1, r), (0, .op (.ok (.reserve [])))])
    (hwakes : (runRpcCycle raceEnv server emailRace).wakes = []) :
    ∃ (s : PollState 1) (labels : List PollLabel) (notify : Notify),
      Trace PollStep { server } labels s ∧
      labels.filterMap PollLabel.round? = [.rpc raceEnv emailRace] ∧ s.Idle ∧
      s.handlers 0 = .parked emailCall [notify] [{ notify }] ∧
      s.server = (runRpcCycle raceEnv server emailRace).server := by
  have htrace : Trace PollStep ({ server } : PollState 1)
      [.client (.op emailCall.op 1), .handler, .handler, .handler, .handler, .handler,
        .cycle (.rpc raceEnv emailRace), .committer, .committer] _ :=
    .cons (.client (Nat.le_refl 1)) <| .cons (.start (i := 0) emailCall rfl) <|
    .cons (.join (PollState.move_self ..)) <| .cons (.joined (PollState.move_self ..)) <|
    .cons (.enable (PollState.move_self ..)) <| .cons (.send (PollState.move_self ..)) <|
    .cons (.rpc ⟨rfl, rfl⟩ rfl) <| .cons (.reply hreplies) <|
    .cons (.reply rfl) <| .nil _
  exact ⟨_, _, _, htrace, rfl, ⟨rfl, hwakes⟩, rfl, rfl⟩

open WireFormat in
/-- Another client has got the email, and none is ready. -/
theorem no_lost_wakeup_emailRace :
    (runRpcCycle raceEnv (Server.after {} oneEmail) emailRace).server.NoneReady "emails" := by
  obtain ⟨r, hreplies⟩ : ∃ r, (runRpcCycle raceEnv (Server.after {} oneEmail) emailRace).replies =
      [(1, r), (0, .op (.ok (.reserve [])))] :=
    ⟨((runRpcCycle raceEnv (Server.after {} oneEmail) emailRace).replies.headD
      (1, .op (.ok (.reserve [])))).2, by decide +kernel⟩
  have hwakes : (runRpcCycle raceEnv (Server.after {} oneEmail) emailRace).wakes = [] := by
    decide +kernel
  obtain ⟨s, labels, notify, htrace, hrounds, hidle, hparked, hserver⟩ :=
    exists_parked hreplies hwakes
  have hadm : AdmissibleRounds (oneEmail ++ labels.filterMap PollLabel.round?) := by
    rw [hrounds]
    exact ⟨by decide, by decide⟩
  rw [← hserver]
  exact no_lost_wakeup hadm htrace hidle hparked (by simp) "emails" List.mem_cons_self

end Sepp
