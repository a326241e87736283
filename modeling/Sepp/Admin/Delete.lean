import Sepp.Admin.Drain
import Sepp.Run.Rounds

/-!
# Deleting a queue

The requests that `delete_queue` of `src/admin/routes.rs` makes to the storage layer. It closes the
queue, asks for its depths, refuses to go on if the queue holds jobs that it may not delete, purges
the queue with the loop of `drain_queue`, and opens the queue again. Each request is one command in
some cycle of the committer, among the commands of other clients, and the handler waits for its
reply before it makes the next one.

The configuration file, which the handler reads before and writes after these requests, is left
out. The lock on its writes keeps other requests that close, open or purge the queue away.

## Main definitions

* `Deleting`, `Deleting.command`, `Deleting.resume` — the handler.
* `DeleteStep` — the handler and the other clients of the committer, cycle by cycle.
-/

namespace Sepp

/-- Where the handler is: waiting for the tombstone, for the depths, for the loop of `drain_queue`
or for the tombstone to go, or done with the storage layer. -/
inductive Deleting where
  | closing
  | checking
  | draining (d : Draining)
  | opening (drained : Except ApiError ℕ)
  | finished (drained : Except ApiError ℕ)

namespace Deleting

/-- The command that the handler waits for, on its channel; the committer stamps it. -/
def command (queue : String) (resp : ℕ) : Deleting → Option Command
  | closing => some (.op (closeRequest queue 0) resp)
  | checking => some (.queueDepths queue resp)
  | draining d => (d.request queue 0).map (.op · resp)
  | opening _ => some (.op (.openQueue queue) resp)
  | finished _ => none

/-- The checks of `drain_queue` before its loop. -/
def checkDepths (purge : Bool) (depths : QueueDepthCounts) : Deleting :=
  if 0 < depths.inflight then
    opening (.error ⟨.conflict, "inflight", "queue has in-flight jobs"⟩)
  else if !purge ∧ (0 < depths.ready ∨ 0 < depths.scheduled ∨ 0 < depths.deadLetter) then
    opening (.error ⟨.conflict, "not_empty", "queue holds jobs; pass purge=true to delete them"⟩)
  else draining (.chunk 0)

/-- What follows the loop of `drain_queue`. -/
def ofDraining : Draining → Deleting
  | .returned drained => opening drained
  | d => draining d

/-- The handler goes on with the reply. -/
def resume (purge : Bool) : Deleting → Reply → Deleting
  | closing, .op (.ok .closeQueue) => checking
  | closing, .op (.ok _) => finished (.error (.ofStatus mismatchedOutcome))
  | closing, .op (.error status) => finished (.error (.ofStatus status))
  | checking, .queueDepths (.ok depths) => checkDepths purge depths
  | checking, .queueDepths (.error status) => opening (.error (.ofStatus status))
  | draining d, .op result => ofDraining (d.resume result)
  -- the result of the reopening is dropped
  | opening drained, .op _ => finished drained
  -- a channel carries replies of one kind only
  | d, _ => d

end Deleting

/-! ### The handler among other clients -/

/-- The operation neither closes, nor opens, nor purges the queue. -/
def Op.Spares (queue : String) : Op → Prop
  | .closeQueue other _ _ | .openQueue other | .purgeQueueChunk other _ => other ≠ queue
  | _ => True

instance (queue : String) : DecidablePred (Op.Spares queue) := fun op =>
  match op with
  | .closeQueue other _ _ | .openQueue other | .purgeQueueChunk other _ =>
    inferInstanceAs (Decidable (other ≠ queue))
  | .enqueue .. | .enqueueAtomic .. | .reserve .. | .ack .. | .nack .. | .extend ..
  | .drainDeadLetters .. | .requeueDeadLetters .. | .deadLetterJobs .. | .deleteDeadLetters ..
  | .sweep .. | .auditAppend .. => isTrue trivial

/-- A cycle that serves the handler among other clients, or a round that does not. -/
inductive DeleteLabel where
  | own (env : CycleEnv) (before : List Command) (cmd : Command) (after : List Command)
  | other (round : Round)

/-- The round of the committer that the step is part of. -/
def DeleteLabel.round : DeleteLabel → Round
  | own env before cmd after => .rpc env (before ++ cmd :: after)
  | other round => round

/-- The handler, and whatever other clients do: in the cycle that serves it, and in between. -/
inductive DeleteStep [Prost] (purge : Bool) (queue : String) (resp : ℕ) :
    Server × Deleting → DeleteLabel → Server × Deleting → Prop
  | own {server : Server} {d : Deleting} {env : CycleEnv} {before after : List Command}
      {cmd : Command} {reply : Reply} (hcmd : d.command queue resp = some cmd)
      (hchannel : ∀ other ∈ before ++ after, other.resp ≠ resp)
      (hspares : ∀ other ∈ before ++ after, ∀ op, other.op? = some op → op.Spares queue)
      (hreply : (resp, reply) ∈ (runRpcCycle env server (before ++ cmd :: after)).replies) :
      DeleteStep purge queue resp (server, d) (.own env before cmd after)
        ((runRpcCycle env server (before ++ cmd :: after)).server, d.resume purge reply)
  | other {server : Server} {d : Deleting} {round : Round}
      (hspares : ∀ op ∈ round.ops, op.Spares queue) :
      DeleteStep purge queue resp (server, d) (.other round) ((round.run server).server, d)

end Sepp
