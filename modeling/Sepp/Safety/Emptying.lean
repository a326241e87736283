import Sepp.Safety.Deleting
import Sepp.Safety.Purging

/-!
# A delete that succeeds leaves nothing

`delete_queue` answers with the number of rows that it has purged once a chunk finds no more of
them. With or without `purge`, and among whatever other clients do, the queue then owns no job, no
dead letter and no dedup record: the tombstone keeps everything out until the last chunk, also in
the rest of its cycle, and a cycle that is rolled back answers no chunk. Since nothing is added
after the queue was closed, the answer counts rows that the queue had at that time.

## Main definitions

* `PromptStep` — a step before the deadline of the tombstone.
* `Deleting.Within` — the rows that are left, and those that are counted.

## Main results

* `owned_of_chunk` — a cycle with a chunk that is answered.
* `deleting_completes`.
-/

open Std

namespace Sepp

/-- A step of the handler, or of other clients, before the deadline of the tombstone. -/
structure PromptStep [Prost] (purge : Bool) (queue : String) (resp : ℕ) (s : Server × Deleting)
    (label : DeleteLabel) (s' : Server × Deleting) : Prop where
  step : DeleteStep purge queue resp s label s'
  timely : Timely queue s label

/-- The rows that the loop has counted. -/
def Draining.purged : Draining → ℕ
  | chunk purged | refresh purged => purged
  | returned _ => 0

/-- The rows that the handler has counted, while it waits for the depths or for the loop. -/
def Deleting.counted? : Deleting → Option ℕ
  | checking => some 0
  | draining d => some d.purged
  | closing | opening _ | finished _ => none

/-- The queue has a tombstone, and what it owns and what is counted are at most `total` rows. -/
def Deleting.Within (queue : String) (total : ℕ) (a : Image) (d : Deleting) : Prop :=
  ∀ n, d.counted? = some n →
    (∃ deadline, a.closing queue = some deadline) ∧ n + a.owned queue ≤ total

theorem stampedOps_subset {now : Int64} {cmds cmds' : List Command}
    (h : ∀ cmd ∈ cmds, cmd ∈ cmds') : stampedOps now cmds ⊆ stampedOps now cmds' := by
  intro op hop
  obtain ⟨op', hop', rfl⟩ := List.mem_map.mp hop
  obtain ⟨cmd, hcmd, heq⟩ := List.mem_filterMap.mp hop'
  exact List.mem_map_of_mem (List.mem_filterMap.mpr ⟨cmd, h cmd hcmd, heq⟩)

section Turns

variable [Prost] {a : Image} {server server' : Server} {queue : String} {ops : List Op}
  {ids : List String} {resp : ℕ}

/-- Turns of operations that keep the tombstone add nothing to the queue. -/
theorem owned_of_turns {turns : List Turn} {s s' : Server × Image} (h : Trace TurnStep s turns s')
    (hops : ∀ t ∈ turns, ∀ op, t.call.op? = some op → op ∈ ops ∧ op.Keeps queue)
    (hone : OneStamp ops) (hguard : s.2.Guarded queue ops) (hfin : s.2.Finite) :
    s'.2.Guarded queue ops ∧ s'.2.owned queue ≤ s.2.owned queue := by
  have hkept := h.preserves
    (P := fun b => b.2.Guarded queue ops ∧ b.2.Finite ∧ b.2.owned queue ≤ s.2.owned queue)
    (fun b t c ht hturn ⟨hb, hfin, hle⟩ => ⟨?_, ?_, ?_⟩) ⟨hguard, hfin, le_rfl⟩
  · exact ⟨hkept.1, hkept.2.2⟩
  · refine (guarded_of_turns (.single hturn) (fun t' ht' op hop => ?_) hone hb).1
    rw [List.mem_singleton.mp ht'] at hop
    exact hops t ht op hop
  · exact hturn.events.preserves (P := Image.Finite) (fun _ _ _ _ hstep hx => hstep.finite hx) hfin
  · obtain ⟨deadline, hclosing, hstamps⟩ := hb
    refine (hturn.owned_le hfin hclosing fun now hnow => ?_).trans hle
    cases hcall : t.call with
    | restart =>
      rw [hcall] at hnow
      cases hnow
    | answered op result =>
      rw [hcall] at hnow
      exact hstamps op (hops t ht op (by rw [hcall]; rfl)).1 now hnow

/-- So does a round. -/
theorem Round.owned_le (round : Round) (h : server.Shows a) (hknows : a.Knows ids)
    (hwf : ∀ op ∈ round.ops, op.WellFormed) (hfresh : (ids ++ jobIdsOf round.ops).Nodup)
    (hkeeps : ∀ op ∈ round.ops, op.Keeps queue) (hguard : a.Guarded queue round.ops) :
    ∃ a', (round.run server).server.Shows a' ∧ a'.Knows (ids ++ jobIdsOf round.ops) ∧
      (∃ deadline, a'.closing queue = some deadline) ∧ a'.owned queue ≤ a.owned queue := by
  obtain ⟨turns, a', hcalls, htrace, hshows', hknows'⟩ := round.exists_turns h hknows hwf hfresh
  have hops : ∀ t ∈ turns, ∀ op, t.call.op? = some op → op ∈ round.ops ∧ op.Keeps queue := by
    intro t ht op hop
    have hmem : op ∈ round.ops := by
      refine (round.ops_committed server).subset (List.mem_filterMap.mpr ⟨t.call, ?_, hop⟩)
      rw [← hcalls]
      exact List.mem_map_of_mem ht
    exact ⟨hmem, hkeeps op hmem⟩
  obtain ⟨⟨deadline, hclosing, -⟩, hle⟩ :=
    owned_of_turns htrace hops round.oneStamp hguard h.finite
  exact ⟨a', hshows', hknows', ⟨deadline, hclosing⟩, hle⟩

/-- And so do the turns of commands. -/
theorem owned_of_cycleCalls {now : Int64} {cmds : List Command} {tx : TxState}
    {turns : List Turn} {s s' : Server × Image}
    (hcalls : turns.map Turn.call = (cycleCalls now cmds tx).map Prod.snd)
    (h : Trace TurnStep s turns s') (hops : ∀ op ∈ stampedOps now cmds, op ∈ ops ∧ op.Keeps queue)
    (hone : OneStamp ops) (hguard : s.2.Guarded queue ops) (hfin : s.2.Finite) :
    s'.2.Guarded queue ops ∧ s'.2.owned queue ≤ s.2.owned queue := by
  refine owned_of_turns h (fun t ht op hop => hops op ?_) hone hguard hfin
  refine (ops_cycleCalls now cmds tx).subset (List.mem_filterMap.mpr ⟨t.call, ?_, hop⟩)
  rw [← hcalls]
  exact List.mem_map_of_mem ht

/-- What a chunk does to the rows of its queue. -/
theorem Server.Shows.owned_of_purge {a' : Image} (h : server.Shows a) (h' : server'.Shows a')
    (hq : FitsPrefix queue) {limit : UInt64} {r : PurgeOutcome} (hstep : CallStep server
      (.answered (.purgeQueueChunk queue limit) (.ok (.purgeQueueChunk r))) server') :
    r.purged + a'.owned queue = a.owned queue ∧ (r.remaining = false → a'.owned queue = 0) := by
  obtain ⟨evs, b, htrace, hshows, hevs, hpurged, -, -, hremaining⟩ := h.purged hq hstep
  have hcount := owned_of_purges htrace h.finite hevs
  have hsame : a'.owned queue = b.owned queue := (h'.owned_eq queue).symm.trans
    (hshows.owned_eq queue)
  refine ⟨by omega, fun hfalse => ?_⟩
  rw [hsame, Image.owned_eq_zero_iff hshows.finite]
  exact fun howns => Bool.false_ne_true (hfalse.symm.trans (hremaining.mpr howns))

variable {env : CycleEnv} {before after : List Command}

/-- A cycle in which a chunk is answered, before the deadline of the tombstone. -/
theorem owned_of_chunk (hshows : server.Shows a) (hknows : a.Knows ids)
    (hwf : ∀ op ∈ stampedOps env.now (before ++ .op (purgeRequest queue purgeChunk) resp :: after),
      op.WellFormed)
    (hfresh : (ids ++ jobIdsOf
      (stampedOps env.now (before ++ .op (purgeRequest queue purgeChunk) resp :: after))).Nodup)
    (hkeeps : ∀ op ∈ stampedOps env.now
      (before ++ .op (purgeRequest queue purgeChunk) resp :: after), op.Keeps queue)
    (hguard : a.Guarded queue
      (stampedOps env.now (before ++ .op (purgeRequest queue purgeChunk) resp :: after)))
    (hchannel : ∀ other ∈ before ++ after, other.resp ≠ resp) {r : PurgeOutcome}
    (hreply : (resp, .op (.ok (.purgeQueueChunk r))) ∈ (runRpcCycle env server
      (before ++ .op (purgeRequest queue purgeChunk) resp :: after)).replies) :
    ∃ a', (runRpcCycle env server
        (before ++ .op (purgeRequest queue purgeChunk) resp :: after)).server.Shows a' ∧
      a'.Knows (ids ++ jobIdsOf
        (stampedOps env.now (before ++ .op (purgeRequest queue purgeChunk) resp :: after))) ∧
      (∃ deadline, a'.closing queue = some deadline) ∧
      r.purged + a'.owned queue ≤ a.owned queue ∧ (r.remaining = false → a'.owned queue = 0) := by
  obtain ⟨run, hrun, hcommit, hparked⟩ := parked_of_reply hreply
  obtain ⟨earlier, op, later, mid', tx, hcmds, hmid', hop⟩ :=
    parked_of_applyCommands hrun hparked List.not_mem_nil
  -- no other command of the cycle answers on the channel of the handler
  obtain ⟨rfl, hcmd, rfl⟩ := (List.append_cons_inj_of_notMem
    (fun hmem => hchannel _ (List.mem_append_left _ hmem) rfl)
    (fun hmem => hchannel _ (List.mem_append_right _ hmem) rfl)).mp hcmds
  obtain ⟨rfl, -⟩ := Command.op.inj hcmd
  obtain ⟨mid, turns, b, turns', a', hmid, hcalls, htrace, hshowsMid, hcalls', htrace', hshows',
    hknows', hrec, hrec'⟩ := applyCommands_turns_append hrun hshows hknows hwf hfresh
  obtain rfl : mid' = mid := congrArg Prod.snd (hmid'.symm.trans hmid)
  have hone := oneStamp_stampedOps env.now
    (before ++ .op (purgeRequest queue purgeChunk) resp :: after)
  have hall : ∀ cmds : List Command,
      (∀ cmd ∈ cmds, cmd ∈ before ++ .op (purgeRequest queue purgeChunk) resp :: after) →
      ∀ op ∈ stampedOps env.now cmds, op ∈ stampedOps env.now
        (before ++ .op (purgeRequest queue purgeChunk) resp :: after) ∧ op.Keeps queue :=
    fun cmds hsub op hop => ⟨stampedOps_subset hsub hop, hkeeps op (stampedOps_subset hsub hop)⟩
  obtain ⟨hguardMid, hle⟩ := owned_of_cycleCalls hcalls htrace
    (hall before fun cmd hcmd => List.mem_append_left _ hcmd) hone hguard hshows.finite
  simp only [cycleCalls, hop, List.map_cons] at hcalls'
  obtain ⟨t, rest, rfl, hcall, hrest⟩ := List.map_eq_cons_iff.mp hcalls'
  obtain ⟨⟨served, c⟩, hturn, hlater⟩ := htrace'.split_first
  have hpurge : (purgeRequest queue purgeChunk).stamp env.now ∈ stampedOps env.now
      (before ++ .op (purgeRequest queue purgeChunk) resp :: after) := by
    rw [stampedOps_append]
    exact List.mem_append_right _ List.mem_cons_self
  obtain ⟨hguardServed, -⟩ := guarded_of_turns (.single hturn) (fun t' ht' op hop => by
    rw [List.mem_singleton.mp ht', hcall] at hop
    obtain rfl := Option.some.inj hop
    exact ⟨hpurge, hkeeps _ hpurge⟩) hone hguardMid
  obtain ⟨⟨deadline, hclosing, -⟩, hle'⟩ := owned_of_cycleCalls hrest hlater
    (hall after fun cmd hcmd => List.mem_append_right _ (List.mem_cons_of_mem _ hcmd)) hone
    hguardServed hturn.shows.finite
  have hq : FitsPrefix queue := hwf _ hpurge
  have hstep := hturn.call
  rw [hcall] at hstep
  obtain ⟨hcount, hdone⟩ := hshowsMid.owned_of_purge hturn.shows hq hstep
  have hevents := (events_of_turns htrace).append (events_of_turns htrace')
  have hserver : (runRpcCycle env server
      (before ++ .op (purgeRequest queue purgeChunk) resp :: after)).server = run.tx.server := by
    rcases runRpcCycle_server hrun hshows hshows' hevents (hrec.append hrec') with
      ⟨hback, -⟩ | ⟨-, hserver⟩
    · simp [rollsBack, hrun, hcommit, Except.isOk, Except.toBool] at hback
    · exact hserver
  rw [hserver]
  dsimp only at hle hle' hcount hdone
  refine ⟨a', hshows', hknows', ⟨deadline, hclosing⟩, by omega, fun hfalse => ?_⟩
  have hzero := hdone hfalse
  omega

end Turns

/-! ### The handler -/

section Handler

variable [Prost] {a : Image} {server server' : Server} {queue : String} {ids : List String}
  {resp total : ℕ} {purge : Bool} {d d' : Deleting} {label : DeleteLabel}

omit [Prost] in
/-- Only the answer to a chunk counts rows, and ends the loop with success. -/
theorem Deleting.resume_cases {cmd : Command} (hcmd : d.command queue resp = some cmd)
    (hclosed : d ≠ closing) (purge : Bool) (reply : Reply) :
    (∃ n r, d = draining (.chunk n) ∧ reply = .op (.ok (.purgeQueueChunk r))) ∨
      (∀ n, (d.resume purge reply).counted? = some n → d.counted? = some n) ∧
        ∀ loop n, d = draining loop → d.resume purge reply ≠ opening (.ok n) := by
  cases d with
  | closing => exact absurd rfl hclosed
  | finished => cases hcmd
  | opening drained =>
    refine .inr ⟨fun n hn => ?_, fun loop n hd => by cases hd⟩
    cases reply <;> cases hn
  | checking =>
    refine .inr ⟨fun n hn => ?_, fun loop n hd => by cases hd⟩
    rcases reply with result | page | (e | depths)
    · exact hn
    · exact hn
    · cases hn
    · rw [resume, checkDepths] at hn
      split_ifs at hn
      · cases hn
      · cases hn
      · exact hn
  | draining loop =>
    have hfailed (e : ApiError) : (∀ n, (opening (.error e)).counted? = some n →
        (draining loop).counted? = some n) ∧
        ∀ loop' n, draining loop = draining loop' → opening (.error e) ≠ opening (.ok n) :=
      ⟨fun n hn => (by cases hn), fun loop' n _ hok => (by cases hok)⟩
    rcases reply with (e | r) | page | depths
    · cases loop with
      | chunk | refresh => exact .inr (hfailed _)
      | returned => cases hcmd
    · cases loop with
      | chunk purged =>
        cases r with
        | purgeQueueChunk r => exact .inl ⟨purged, r, rfl, rfl⟩
        | _ => exact .inr (hfailed _)
      | refresh purged =>
        cases r with
        | closeQueue => exact .inr ⟨fun n hn => hn, fun loop' n _ hok => (by cases hok)⟩
        | _ => exact .inr (hfailed _)
      | returned => cases hcmd
    · exact .inr ⟨fun n hn => hn, fun loop' n _ hok => (by cases hok)⟩
    · exact .inr ⟨fun n hn => hn, fun loop' n _ hok => (by cases hok)⟩

omit [Prost] in
/-- While the handler waits, the rounds come before the deadline of the tombstone. -/
theorem Timely.stamps (h : Timely queue (server, d) label) {n : ℕ} (hd : d.counted? = some n) :
    ∀ deadline, server.indexes.closing[queue]? = some deadline →
      StampedBefore label.round.ops deadline := by
  cases d with
  | checking | draining => exact h
  | closing | opening | finished => cases hd

omit [Prost] in
/-- The handler, while it waits after the tombstone was set, makes no command that removes it. -/
theorem DeleteStep.keeps_own {env : CycleEnv} {before after : List Command} {cmd : Command}
    (hcmd : d.command queue resp = some cmd) (hd : ∀ drained, d ≠ .opening drained)
    (hspares : ∀ other ∈ before ++ after, ∀ op, other.op? = some op → op.Spares queue) :
    ∀ op ∈ stampedOps env.now (before ++ cmd :: after), op.Keeps queue := by
  refine Op.keeps_of_stampedOps fun cmd' hcmd' op hop => ?_
  rcases List.mem_append.mp hcmd' with hmem | hmem
  · exact (hspares cmd' (List.mem_append_left _ hmem) op hop).keeps_stamp env.now
  · rcases List.mem_cons.mp hmem with rfl | hmem
    · exact Deleting.keeps_command hcmd hd env.now op hop
    · exact (hspares cmd' (List.mem_append_right _ hmem) op hop).keeps_stamp env.now

/-- A step keeps the count, once the queue is closed; and the one that ends the loop with success
leaves nothing. -/
theorem PromptStep.within (h : PromptStep purge queue resp (server, d) label (server', d'))
    (hclosed : d ≠ .closing) (hshows : server.Shows a) (hknows : a.Knows ids)
    (hwf : ∀ op ∈ label.round.ops, op.WellFormed)
    (hfresh : (ids ++ jobIdsOf label.round.ops).Nodup) (hwithin : d.Within queue total a) :
    ∃ a', server'.Shows a' ∧ a'.Knows (ids ++ jobIdsOf label.round.ops) ∧
      d'.Within queue total a' ∧ ∀ loop n, d = .draining loop → d' = .opening (.ok n) →
        a'.owned queue = 0 ∧ n ≤ total := by
  obtain ⟨hstep, htimely⟩ := h
  have hguard : ∀ {n}, d.counted? = some n → a.Guarded queue label.round.ops := by
    intro n hn
    obtain ⟨⟨deadline, hclosing⟩, -⟩ := hwithin n hn
    exact ⟨deadline, hclosing,
      htimely.stamps hn deadline ((hshows.metadata.closing queue).trans hclosing)⟩
  -- a round that keeps the tombstone, after which nothing more is counted
  have hround : (∀ {n}, d.counted? = some n → ∀ op ∈ label.round.ops, op.Keeps queue) →
      (∀ n, d'.counted? = some n → d.counted? = some n) →
      (∀ loop n, d = .draining loop → d' ≠ .opening (.ok n)) →
      ∃ a', (label.round.run server).server.Shows a' ∧
        a'.Knows (ids ++ jobIdsOf label.round.ops) ∧ d'.Within queue total a' ∧
        ∀ loop n, d = .draining loop → d' = .opening (.ok n) → a'.owned queue = 0 ∧ n ≤ total := by
    intro hkeeps hsame hnot
    cases hd : d.counted? with
    | none =>
      obtain ⟨-, a', -, -, hshows', hknows'⟩ := label.round.exists_turns hshows hknows hwf hfresh
      refine ⟨a', hshows', hknows', fun n hn => ?_, fun loop n hloop hok => ?_⟩
      · cases hd.symm.trans (hsame n hn)
      · exact absurd hok (hnot loop n hloop)
    | some n =>
      obtain ⟨a', hshows', hknows', hclosing', hle⟩ :=
        label.round.owned_le hshows hknows hwf hfresh (hkeeps hd) (hguard hd)
      refine ⟨a', hshows', hknows', fun m hm => ⟨hclosing', ?_⟩, fun loop n hloop hok => ?_⟩
      · have htotal := (hwithin m (hsame m hm)).2
        omega
      · exact absurd hok (hnot loop n hloop)
  cases hstep with
  | other hspares =>
    refine hround (fun _ op hop => (hspares op hop).keeps) (fun n hn => hn)
      fun loop n hloop hok => ?_
    rw [hloop] at hok
    cases hok
  | @own server d env before after cmd reply hcmd hchannel hspares hreply =>
    have hkeeps : ∀ {n}, d.counted? = some n →
        ∀ op ∈ stampedOps env.now (before ++ cmd :: after), op.Keeps queue := by
      intro n hn
      refine DeleteStep.keeps_own hcmd (fun drained hopening => ?_) hspares
      rw [hopening] at hn
      cases hn
    rcases Deleting.resume_cases hcmd hclosed purge reply with ⟨n, r, rfl, rfl⟩ | ⟨hsame, hnot⟩
    · obtain rfl := Option.some.inj hcmd
      obtain ⟨a', hshows', hknows', hclosing', hle, hdone⟩ := owned_of_chunk hshows hknows hwf
        hfresh (hkeeps rfl) (hguard rfl) hchannel hreply
      have htotal : n + a.owned queue ≤ total := (hwithin n rfl).2
      refine ⟨a', hshows', hknows', fun m hm => ⟨hclosing', ?_⟩, fun loop m _ hok => ?_⟩
      · rw [Deleting.resume, Draining.resume] at hm
        split_ifs at hm
        · obtain rfl := Option.some.inj hm
          rw [Draining.purged]
          omega
        · cases hm
      · rw [Deleting.resume, Draining.resume] at hok
        split_ifs at hok with hmore
        · cases hok
        · cases hok
          exact ⟨hdone (Bool.eq_false_iff.mpr hmore), by omega⟩
    · exact hround hkeeps hsame hnot

/-- The queue has a tombstone once the handler goes on to the depths. -/
theorem PromptStep.closed (h : PromptStep purge queue resp (server, .closing) label (server', d'))
    (hd' : d' = .checking) (hshows : server.Shows a) (hknows : a.Knows ids)
    (hwf : ∀ op ∈ label.round.ops, op.WellFormed)
    (hfresh : (ids ++ jobIdsOf label.round.ops).Nodup) :
    ∃ a', server'.Shows a' ∧ a'.Knows (ids ++ jobIdsOf label.round.ops) ∧
      ∃ deadline, a'.closing queue = some deadline := by
  obtain ⟨hstep, htimely⟩ := h
  cases hstep with
  | other => cases hd'
  | @own server d env before after cmd reply hcmd hchannel hspares hreply =>
    obtain rfl := Option.some.inj hcmd
    rcases reply with (e | r) | page | depths
    · cases hd'
    · exact exists_tombstone_of_close hshows hknows hwf hfresh
        (Op.keeps_of_stampedOps fun cmd' hcmd' op hop =>
          (hspares cmd' (List.mem_append_right _ hcmd') op hop).keeps_stamp env.now) htimely hreply
    · cases hd'
    · cases hd'

omit [Prost] in
/-- The handler closes the queue only once. -/
theorem Deleting.resume_ne_closing (hd : d ≠ closing) (purge : Bool) (reply : Reply) :
    d.resume purge reply ≠ closing := by
  intro h
  cases d with
  | closing => exact hd rfl
  | finished => cases reply <;> cases h
  | opening drained => cases reply <;> cases h
  | checking =>
    rcases reply with result | page | (e | depths)
    · cases h
    · cases h
    · cases h
    · rw [resume, checkDepths] at h
      split_ifs at h
  | draining loop =>
    cases reply with
    | peekKeys | queueDepths => cases h
    | op result =>
      rw [resume] at h
      cases hloop : loop.resume result <;> rw [hloop] at h <;> cases h

theorem DeleteStep.ne_closing (h : DeleteStep purge queue resp (server, d) label (server', d'))
    (hd : d ≠ .closing) : d' ≠ .closing := by
  cases h with
  | other => exact hd
  | own => exact Deleting.resume_ne_closing hd purge _

/-- Steps after the queue was closed keep the count. -/
theorem within_of_promptSteps {rounds : List Round} {labels : List DeleteLabel} {closed : Server}
    (hshows : closed.Shows a) (hknows : a.Knows (jobIdsOf (rounds.flatMap Round.ops)))
    (hclosing : ∃ deadline, a.closing queue = some deadline)
    (hsteps : Trace (PromptStep purge queue resp) (closed, .checking) labels (server, d))
    (hadm : AdmissibleRounds (rounds ++ labels.map DeleteLabel.round)) :
    d ≠ .closing ∧ ∃ b, server.Shows b ∧
      b.Knows (jobIdsOf ((rounds ++ labels.map DeleteLabel.round).flatMap Round.ops)) ∧
      d.Within queue (a.owned queue) b := by
  refine hsteps.history (P := fun labels s =>
    AdmissibleRounds (rounds ++ labels.map DeleteLabel.round) → s.2 ≠ .closing ∧ ∃ b, s.1.Shows b ∧
      b.Knows (jobIdsOf ((rounds ++ labels.map DeleteLabel.round).flatMap Round.ops)) ∧
      s.2.Within queue (a.owned queue) b) (fun hadm => ?_)
    (fun labels label s s' _ ih hstep hadm => ?_) hadm
  · rw [List.map_nil, List.append_nil]
    refine ⟨by simp, a, hshows, hknows, fun n hn => ⟨hclosing, ?_⟩⟩
    obtain rfl := Option.some.inj hn
    omega
  · rw [List.map_append, List.map_singleton, ← List.append_assoc] at hadm ⊢
    obtain ⟨hwf, hfresh⟩ := hadm.last
    obtain ⟨hne, b, hb, hbknows, hwithin⟩ := ih hadm.of_append
    obtain ⟨c, hc, hcknows, hwithin', -⟩ := hstep.within hne hb hbknows hwf hfresh hwithin
    rw [AdmissibleRounds.jobIdsOf_concat]
    exact ⟨hstep.step.ne_closing hne, c, hc, hcknows, hwithin'⟩

/-- A delete that succeeds, with or without `purge` and among whatever other clients do: after the
cycle with its last chunk no row belongs to the queue, and the answer counts rows that the queue had
when it was closed. -/
theorem deleting_completes {rounds : List Round} {first last : DeleteLabel}
    {labels : List DeleteLabel} {closed : Server} {loop : Draining} {n : ℕ}
    (hadm : AdmissibleRounds (rounds ++ (first :: labels ++ [last]).map DeleteLabel.round))
    (hfirst : PromptStep purge queue resp (Server.after {} rounds, .closing) first
      (closed, .checking))
    (hsteps : Trace (PromptStep purge queue resp) (closed, .checking) labels
      (server, .draining loop))
    (hlast : PromptStep purge queue resp (server, .draining loop) last
      (server', .opening (.ok n))) :
    n ≤ closed.rows.owned queue ∧ server'.rows.owned queue = 0 ∧
      ∀ ks : KeyspaceName, ks.ofQueues = true → ∀ key value,
        (server'.rows.get ks)[key]? = some value →
          ∃ other, other ≠ queue ∧ server'.rows.queueOf ks key = some other := by
  have hrounds : rounds ++ (first :: labels ++ [last]).map DeleteLabel.round =
      (rounds ++ [first.round]) ++ labels.map DeleteLabel.round ++ [last.round] := by simp
  rw [hrounds] at hadm
  obtain ⟨hwf, hfresh⟩ := hadm.last
  have hadm' := hadm.of_append
  obtain ⟨hwf₁, hfresh₁⟩ := hadm'.of_append.last
  obtain ⟨a, hshows, hknows⟩ := exists_shows_after hadm'.of_append.of_append
  obtain ⟨a₁, hshows₁, hknows₁, hclosing⟩ := hfirst.closed rfl hshows hknows hwf₁ hfresh₁
  rw [← AdmissibleRounds.jobIdsOf_concat] at hknows₁
  obtain ⟨hne, b, hb, hbknows, hwithin⟩ :=
    within_of_promptSteps hshows₁ hknows₁ hclosing hsteps hadm'
  obtain ⟨c, hc, -, -, hdone⟩ := hlast.within hne hb hbknows hwf hfresh hwithin
  obtain ⟨hzero, hle⟩ := hdone loop n rfl rfl
  rw [hshows₁.owned_eq, hc.owned_eq]
  refine ⟨hle, hzero, fun ks hks key value hget => ?_⟩
  obtain ⟨other, hother⟩ := hc.exists_queueOf hks hget
  rw [Image.owned_eq_zero_iff hc.finite] at hzero
  exact ⟨other, fun heq => hzero (hc.owns_of_queueOf hks hget (heq ▸ hother)), hother⟩

end Handler

section Examples

variable [Prost]

/-- The handler with `purge` is alone in its cycles until the chunk, which goes before `after`. -/
theorem promptSteps_until_chunk (server : Server) (queue : String) (resp : ℕ)
    (first second third : CycleEnv) (depths : QueueDepthCounts) (r : PurgeOutcome)
    (after : List Command) (hinflight : depths.inflight = 0) (hdone : r.remaining = false)
    (hchannel : ∀ other ∈ after, other.resp ≠ resp)
    (hspares : ∀ other ∈ after, ∀ op, other.op? = some op → op.Spares queue)
    (hclose : (resp, .op (.ok .closeQueue)) ∈
      (runRpcCycle first server [.op (closeRequest queue 0) resp]).replies)
    {closed : Server} (hclosed : (runRpcCycle first server
      [.op (closeRequest queue 0) resp]).server = closed)
    (hdepths : (resp, .queueDepths (.ok depths)) ∈
      (runRpcCycle second closed [.queueDepths queue resp]).replies)
    {checked : Server} (hchecked : (runRpcCycle second closed
      [.queueDepths queue resp]).server = checked)
    (hchunk : (resp, .op (.ok (.purgeQueueChunk r))) ∈ (runRpcCycle third checked
      (.op (purgeRequest queue purgeChunk) resp :: after)).replies) :
    DeleteStep true queue resp (server, .closing)
        (.own first [] (.op (closeRequest queue 0) resp) []) (closed, .checking) ∧
      DeleteStep true queue resp (closed, .checking) (.own second [] (.queueDepths queue resp) [])
        (checked, .draining (.chunk 0)) ∧
      DeleteStep true queue resp (checked, .draining (.chunk 0))
        (.own third [] (.op (purgeRequest queue purgeChunk) resp) after)
        ((runRpcCycle third checked (.op (purgeRequest queue purgeChunk) resp :: after)).server,
          .opening (.ok (0 + r.purged))) := by
  subst hclosed hchecked
  have hnone : ∀ other ∈ ([] : List Command), other.resp ≠ resp := by simp
  have hnone' : ∀ other ∈ ([] : List Command), ∀ op, other.op? = some op → op.Spares queue := by
    simp
  have hclosing : DeleteStep true queue resp (server, .closing)
      (.own first [] (.op (closeRequest queue 0) resp) [])
      (_, Deleting.closing.resume true (.op (.ok .closeQueue))) :=
    .own rfl hnone hnone' hclose
  have hchecking : DeleteStep true queue resp (_, .checking)
      (.own second [] (.queueDepths queue resp) [])
      (_, Deleting.checking.resume true (.queueDepths (.ok depths))) :=
    .own rfl hnone hnone' hdepths
  have hdraining : DeleteStep true queue resp (_, .draining (.chunk 0))
      (.own third [] (.op (purgeRequest queue purgeChunk) resp) after)
      (_, (Deleting.draining (.chunk 0)).resume true (.op (.ok (.purgeQueueChunk r)))) :=
    .own rfl hchannel hspares hchunk
  have hdrain : Deleting.checking.resume true (.queueDepths (.ok depths)) =
      .draining (.chunk 0) := by
    simp [Deleting.resume, Deleting.checkDepths, hinflight]
  have hopen : (Deleting.draining (.chunk 0)).resume true (.op (.ok (.purgeQueueChunk r))) =
      .opening (.ok (0 + r.purged)) := by
    simp [Deleting.resume, Draining.resume, Deleting.ofDraining, hdone]
  rw [hdrain] at hchecking
  rw [hopen] at hdraining
  exact ⟨hclosing, hchecking, hdraining⟩

end Examples

/-- The request of another client to enqueue into the queue. -/
def lateEmail : Command := .op (.enqueue [keyedEmail "b"] 0) 1

open WireFormat in
/-- A queue with a dead letter is purged, and another client that enqueues right after the chunk, in
the same cycle, is refused. -/
theorem deleting_completes_deadEmail :
    ∃ closed server server' : Server,
      Trace (PromptStep true "emails" 0) (Server.after {} deadEmail, .closing)
        [.own closingCycle [] (.op (closeRequest "emails" 0) 0) [],
          .own { closingCycle with now := 4000 } [] (.queueDepths "emails" 0) []]
        (server, .draining (.chunk 0)) ∧
      PromptStep true "emails" 0 (server, .draining (.chunk 0))
        (.own { closingCycle with now := 5000 } [] (.op (purgeRequest "emails" purgeChunk) 0)
          [lateEmail]) (server', .opening (.ok 1)) ∧
      server.rows.deadLetter.size = 1 ∧ 1 ≤ closed.rows.owned "emails" ∧
      server'.rows.owned "emails" = 0 := by
  have hspares : ∀ other ∈ [lateEmail], ∀ op, other.op? = some op → op.Spares "emails" := by
    intro other hother op hop
    rw [List.mem_singleton] at hother
    subst hother
    obtain rfl := Option.some.inj hop
    trivial
  obtain ⟨hclosing, hchecking, hdraining⟩ := promptSteps_until_chunk (Server.after {} deadEmail)
    "emails" 0 closingCycle { closingCycle with now := 4000 } { closingCycle with now := 5000 }
    ⟨0, 0, 0, 1⟩ ⟨1, false⟩ [lateEmail] rfl rfl (by decide) hspares (by decide +kernel) rfl
    (by decide +kernel) rfl (by decide +kernel)
  have htombstone : (runRpcCycle { closingCycle with now := 4000 } (runRpcCycle closingCycle
      (Server.after {} deadEmail) [.op (closeRequest "emails" 0) 0]).server
      [.queueDepths "emails" 0]).server.indexes.closing["emails"]? = some 33000 := by
    decide +kernel
  have htimely : Timely "emails" ((runRpcCycle { closingCycle with now := 4000 }
      (runRpcCycle closingCycle (Server.after {} deadEmail)
        [.op (closeRequest "emails" 0) 0]).server [.queueDepths "emails" 0]).server,
      .draining (.chunk 0)) (.own { closingCycle with now := 5000 } []
        (.op (purgeRequest "emails" purgeChunk) 0) [lateEmail]) := by
    intro deadline hdeadline op hop now hnow
    obtain rfl := Option.some.inj (htombstone.symm.trans hdeadline)
    rcases List.mem_pair.mp hop with rfl | rfl
    · cases hnow
    · obtain rfl := Option.some.inj hnow
      decide
  have hfirst := PromptStep.mk hclosing fun _ hop => absurd hop List.not_mem_nil
  have hsecond := PromptStep.mk hchecking fun _ _ _ hop => absurd hop List.not_mem_nil
  have hlast := PromptStep.mk hdraining htimely
  obtain ⟨hle, hzero, -⟩ := deleting_completes ⟨by decide, by decide⟩ hfirst
    (.cons hsecond (.nil _)) hlast
  exact ⟨_, _, _, .cons hfirst (.cons hsecond (.nil _)), hlast, by decide +kernel, hle, hzero⟩

end Sepp
