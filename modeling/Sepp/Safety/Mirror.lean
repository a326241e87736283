import Sepp.Run.Rounds
import Sepp.Wire.Codec

/-!
# The indexes mirror the store

After every round the indexes are those that `rebuild_indexes` computes from the committed rows,
with true counts, and a cycle that is not dirty has written nothing. So a restart between two
cycles changes nothing: the rounds after it end the same way.

## Main definitions

* `Indexes.Counted` — the counts of all indexes are true.
* `outcomes` — what the cycles of a sequence of rounds leave behind, one by one.

## Main results

* `mirrored_and_restart_transparent`.
-/

namespace Sepp

/-- The counts of all indexes are those of their keys, and no count is zero. -/
structure Indexes.Counted (idx : Indexes) : Prop where
  ready : idx.ready.Counted
  scheduled : idx.scheduled.Counted
  leases : idx.leases.Counted
  dedupTimers : idx.dedupTimers.Counted
  deadLetter : idx.deadLetter.Counted

/-- The round is a cycle, not a restart. -/
def Round.isCycle : Round → Bool
  | restart => false
  | rpc .. | sweep .. => true

section Mirror

variable [Prost] {server : Server} {a : Image} {ids : List String} {rounds : List Round}

/-- What the cycles leave behind, one by one: the store, the replies, the metrics, the wakes. -/
def outcomes (server : Server) : List Round → List CycleResult
  | [] => []
  | round :: rounds =>
    if round.isCycle then round.run server :: outcomes (round.run server).server rounds
    else outcomes (round.run server).server rounds

theorem Represents.counted {rows : Rows} {idx : Indexes} (h : Represents a rows idx) :
    idx.Counted where
  ready := h.jobs.ready.counted
  scheduled := h.jobs.scheduled.counted
  leases := h.jobs.lease.counted
  dedupTimers := h.dedup.counted
  deadLetter := h.jobs.dead.counted

/-- Without its restarts a sequence of rounds has the same outcomes and the same end. -/
theorem outcomes_filter (h : server.Shows a) (hknows : a.Knows ids)
    (hwf : ∀ round ∈ rounds, ∀ op ∈ round.ops, op.WellFormed)
    (hfresh : (ids ++ jobIdsOf (rounds.flatMap Round.ops)).Nodup) :
    outcomes server (rounds.filter Round.isCycle) = outcomes server rounds ∧
      server.after (rounds.filter Round.isCycle) = server.after rounds := by
  induction rounds generalizing server a ids with
  | nil => exact ⟨rfl, rfl⟩
  | cons round rounds ih =>
    rw [List.flatMap_cons, jobIdsOf_append, ← List.append_assoc] at hfresh
    obtain ⟨turns, a', -, -, hshows, hknows'⟩ := round.exists_turns h hknows
      (hwf round List.mem_cons_self) (List.nodup_append.mp hfresh).1
    obtain ⟨houtcomes, hafter⟩ := ih hshows hknows'
      (fun r hr => hwf r (List.mem_cons_of_mem _ hr)) hfresh
    cases hcycle : round.isCycle with
    | true =>
      rw [List.filter_cons_of_pos hcycle]
      refine ⟨?_, hafter⟩
      simp only [outcomes, hcycle, if_true, houtcomes]
    | false =>
      obtain rfl : round = .restart := by cases round <;> first | rfl | cases hcycle
      -- a restart leaves the server as it is
      have hsame : (Round.restart.run server).server = server := h.rolledBack_eq
      rw [List.filter_cons_of_neg (by simp [hcycle])]
      rw [hsame] at houtcomes hafter
      refine ⟨?_, ?_⟩
      · simp only [outcomes, hcycle, Bool.false_eq_true, if_false, hsame, houtcomes]
      · rw [hafter, Server.after, Server.after, List.foldl_cons, hsame]

/-- A cycle of commands that is not dirty has written nothing. -/
theorem applyCommands_clean {env : CycleEnv} {rpcs : List Command} {run : CycleRun}
    (h : server.Shows a) (hknows : a.Knows ids)
    (hwf : ∀ op ∈ stampedOps env.now rpcs, op.WellFormed)
    (hfresh : (ids ++ jobIdsOf (stampedOps env.now rpcs)).Nodup)
    (hrun : applyCommands env.now rpcs { tx := beginCycle env server } = (none, run))
    (hclean : run.tx.cycle.dirty = false) : run.tx.server = server := by
  obtain ⟨turns, a', -, htrace, hshows, -, hrec⟩ := applyCommands_turns hrun h hknows hwf hfresh
  have ha : a' = a := hrec.eq_of_clean (events_of_turns htrace) hclean
  have hshows' : run.tx.server.Shows a := ha ▸ hshows
  exact congrArg₂ Server.mk (hshows'.rows_eq h) (hshows'.idx_eq h)

/-- A sweep that is not dirty has written nothing. -/
theorem applySweep_clean {env : CycleEnv} {params : SweepParams} {r : OpOutcome} {tx : TxState}
    (h : server.Shows a)
    (hrun : applyOp (sweepOp params env.now) (beginCycle env server) = .ok r tx)
    (hclean : tx.cycle.dirty = false) : tx.server = server := by
  have hfresh : a.Fresh (sweepOp params env.now).jobs :=
    ⟨List.nodup_nil, by simp [sweepOp, Op.jobs]⟩
  obtain ⟨evs, a', hturn, hrec⟩ :=
    applyOp_turn h (show (sweepOp params env.now).WellFormed from trivial) hfresh hrun
  have ha : a' = a := hrec.eq_of_clean hturn.events hclean
  have hshows' : tx.server.Shows a := ha ▸ hturn.shows
  exact congrArg₂ Server.mk (hshows'.rows_eq h) (hshows'.idx_eq h)

/-- After every sequence of rounds the indexes are the rebuilt ones, a cycle that skips its commit
has written nothing, and the restarts among the rounds change no outcome and no row. -/
theorem mirrored_and_restart_transparent (hadm : AdmissibleRounds rounds) :
    (Server.after {} rounds).indexes = rebuildIndexes (Server.after {} rounds).rows ∧
    (Server.after {} rounds).indexes.Counted ∧
    (∀ env rpcs run, AdmissibleRounds (rounds ++ [.rpc env rpcs]) →
      applyCommands env.now rpcs { tx := beginCycle env (Server.after {} rounds) } = (none, run) →
      run.tx.cycle.dirty = false → run.tx.server = Server.after {} rounds) ∧
    (∀ env params r tx,
      applyOp (sweepOp params env.now) (beginCycle env (Server.after {} rounds)) = .ok r tx →
      tx.cycle.dirty = false → tx.server = Server.after {} rounds) ∧
    outcomes {} (rounds.filter Round.isCycle) = outcomes {} rounds ∧
    Server.after {} (rounds.filter Round.isCycle) = Server.after {} rounds := by
  obtain ⟨a, hshows, hknows⟩ := exists_shows_after hadm
  have hempty : Image.empty.Knows [] := fun _ hid => absurd rfl hid
  refine ⟨hshows.rebuildIndexes_eq.symm, hshows.counted, fun env rpcs run hadm' hrun hclean => ?_,
    fun env params r tx hrun hclean => applySweep_clean hshows hrun hclean,
    outcomes_filter Server.shows_empty hempty hadm.wellFormed hadm.fresh⟩
  obtain ⟨hwf, hfresh⟩ := hadm'.last
  exact applyCommands_clean hshows hknows hwf hfresh hrun hclean

end Mirror

/-- A cycle of commands, a restart, a cycle with a failing read, a sweep and a cycle that fails to
commit. -/
def fiveRounds : List Round :=
  let env (now : Int64) (faults : ℕ → Option String) (commitFails : Bool) : CycleEnv :=
    { now, metricsEnabled := true, faults, commitFails }
  let job (id : String) : PreparedJob :=
    { id
      req := { queue := "emails", jobType := "send" }
      limits := { priority := 5, maxAttempts := 1, dedupWindowMs := 60000 } }
  [.rpc (env 1000 (fun _ => none) false)
      [.op (.enqueue [job "a"] 0) 0, .op (.reserve ["emails"] 10 1 0) 1, .queueDepths "emails" 2],
    .restart,
    .rpc (env 1005 (fun _ => some "disk") false) [.op (.ack "a" 1) 3],
    .sweep (env 2000 (fun _ => none) false) { sweepLimit := 100, deadLetterRetentionMs := 1000 },
    .rpc (env 2500 (fun _ => none) true) [.op (.enqueue [job "b"] 0) 4]]

open WireFormat in
theorem mirrored_fiveRounds :
    (Server.after {} fiveRounds).indexes = rebuildIndexes (Server.after {} fiveRounds).rows :=
  (mirrored_and_restart_transparent ⟨by decide, by decide⟩).1

end Sepp
