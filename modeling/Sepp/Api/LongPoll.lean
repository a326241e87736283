import Sepp.Committer.Notify
import Sepp.Run.Rounds

/-!
# Long-polling reserves

The loop of `QueueServer::reserve` of `src/queue_server.rs`, any number of times at once, and the
committer that serves it. A handler gets the notifiers of its queues, and then enables them, sends
its reserve and parks on an empty reply until one of them is notified. The committer takes commands
from its channel, applies them in a cycle, sends the replies and then wakes the queues that got
ready jobs. All these are steps of their own, in any order that the handlers and the committer may
take them: a handler may look up a queue or enable a notifier between two wakes of one cycle.

A handler that times out, is shut down or is dropped leaves, at any point. Its command may still be
in the channel then. The bookkeeping of the committer for metrics between two cycles is left out.

## Main definitions

* `ReserveCall` — the reserve that a handler repeats.
* `Handler`, `PollState`, `PollStep` — the handlers and the committer.
-/

namespace Sepp

/-! ### The reserve of a handler -/

/-- The arguments of `reserve_once`, which every turn of the loop repeats. -/
structure ReserveCall where
  queues : List String
  leaseMs : UInt64
  maxJobs : UInt64
  /-- The number of jobs is clamped to at least one. -/
  one_le_maxJobs : 1 ≤ maxJobs

/-- The operation of `reserve_once`. -/
def ReserveCall.op (call : ReserveCall) : Op := .reserve call.queues call.leaseMs call.maxJobs 0

/-! ### Handlers -/

/-- Where a handler is. It looks up its queues, enables its notifiers, waits for its reply, is
parked on an empty one, or has left. -/
inductive Handler where
  | absent
  | joining (call : ReserveCall) (notifies : List Notify) (left : List String)
  | arming (call : ReserveCall) (notifies : List Notify) (armed : List Notified)
      (left : List Notify)
  | reserving (call : ReserveCall) (notifies : List Notify) (armed : List Notified)
  | parked (call : ReserveCall) (notifies : List Notify) (armed : List Notified)
  | gone

namespace Handler

/-- The handles on notifiers that the handler holds. -/
def held : Handler → List Notify
  | joining _ notifies _ | arming _ notifies _ _ | reserving _ notifies _ | parked _ notifies _ =>
    notifies
  | absent | gone => []

/-- The handler goes on with the reply to its reserve. -/
def receive : Handler → Reply → Handler
  | reserving call notifies armed, .op (.ok (.reserve [])) => parked call notifies armed
  | reserving .., _ => gone
  | h, _ => h

/-- A notifier notifies the futures of the handler. -/
def wake (notify : Notify) : Handler → Handler
  | arming call notifies armed left => arming call notifies (notifyWaiters notify armed) left
  | reserving call notifies armed => reserving call notifies (notifyWaiters notify armed)
  | parked call notifies armed => parked call notifies (notifyWaiters notify armed)
  | h => h

end Handler

/-! ### The handlers and the committer -/

/-- The store, the channel to the committer, what is left to do of its last cycle, and the
handlers. The reply channel of a handler is its own number; other clients have larger ones. -/
structure PollState (n : ℕ) where
  server : Server
  channel : List Command := []
  replies : List (ℕ × Reply) := []
  wakes : List String := []
  notifiers : QueueNotifiers := {}
  handlers : Fin n → Handler := fun _ => .absent

namespace PollState

variable {n : ℕ}

/-- The handles on notifiers outside of the map. -/
def held (s : PollState n) : List Notify := (List.finRange n).flatMap fun i => (s.handlers i).held

/-- The committer is between two cycles. -/
structure Idle (s : PollState n) : Prop where
  replies : s.replies = []
  wakes : s.wakes = []

/-- A handler moves. -/
def move (s : PollState n) (i : Fin n) (handler : Handler) : PollState n :=
  { s with handlers := Function.update s.handlers i handler }

/-- A reply reaches the handler whose channel it is on. -/
def deliver (s : PollState n) (resp : ℕ) (reply : Reply) : PollState n :=
  { s with
    handlers := fun i => if i.val = resp then (s.handlers i).receive reply else s.handlers i }

/-- `QueueNotifiers::wake`. -/
def wake (s : PollState n) (queue : String) : PollState n :=
  match s.notifiers.map[queue]? with
  | some notify => { s with handlers := fun i => (s.handlers i).wake notify }
  | none => s

end PollState

/-- What happens: a handler moves, another client sends a command, or the committer goes on. -/
inductive PollLabel where
  | handler
  | client (cmd : Command)
  | cycle (round : Round)
  | committer

/-- The rounds of the committer. -/
def PollLabel.round? : PollLabel → Option Round
  | cycle round => some round
  | _ => none

/-- One step of a handler, of another client or of the committer. -/
inductive PollStep [Prost] {n : ℕ} : PollState n → PollLabel → PollState n → Prop
  /-- A request comes in. -/
  | start {s : PollState n} {i : Fin n} (call : ReserveCall) (h : s.handlers i = .absent) :
      PollStep s .handler (s.move i (.joining call [] call.queues))
  /-- `Storage::job_waiter` looks up the next queue. -/
  | join {s : PollState n} {i : Fin n} {call : ReserveCall} {notifies : List Notify}
      {queue : String} {left : List String}
      (h : s.handlers i = .joining call notifies (queue :: left)) :
      PollStep s .handler
        ({ s with notifiers := (s.notifiers.get s.held queue).2 }.move i
          (.joining call (notifies ++ [(s.notifiers.get s.held queue).1]) left))
  | joined {s : PollState n} {i : Fin n} {call : ReserveCall} {notifies : List Notify}
      (h : s.handlers i = .joining call notifies []) :
      PollStep s .handler (s.move i (.arming call notifies [] notifies))
  /-- `JobWaiter::arm` enables the next notifier. -/
  | enable {s : PollState n} {i : Fin n} {call : ReserveCall} {notifies : List Notify}
      {armed : List Notified} {notify : Notify} {left : List Notify}
      (h : s.handlers i = .arming call notifies armed (notify :: left)) :
      PollStep s .handler (s.move i (.arming call notifies (armed ++ [{ notify : Notified }]) left))
  /-- `reserve_once` sends the reserve. -/
  | send {s : PollState n} {i : Fin n} {call : ReserveCall} {notifies : List Notify}
      {armed : List Notified} (h : s.handlers i = .arming call notifies armed []) :
      PollStep s .handler
        ({ s with channel := s.channel ++ [Command.op call.op i] }.move i
          (.reserving call notifies armed))
  /-- A parked handler that was notified starts over. -/
  | again {s : PollState n} {i : Fin n} {call : ReserveCall} {notifies : List Notify}
      {armed : List Notified} (h : s.handlers i = .parked call notifies armed)
      (hnotified : ∃ waiter ∈ armed, waiter.notified = true) :
      PollStep s .handler (s.move i (.arming call notifies [] notifies))
  | leave {s : PollState n} (i : Fin n) : PollStep s .handler (s.move i .gone)
  | client {s : PollState n} {cmd : Command} (hresp : n ≤ cmd.resp) :
      PollStep s (.client cmd) { s with channel := s.channel ++ [cmd] }
  /-- `run_rpc_cycle`, up to its replies. -/
  | rpc {s : PollState n} {env : CycleEnv} {rpcs rest : List Command} (hidle : s.Idle)
      (hchannel : s.channel = rpcs ++ rest) :
      PollStep s (.cycle (.rpc env rpcs))
        { s with
          server := (runRpcCycle env s.server rpcs).server
          channel := rest
          replies := (runRpcCycle env s.server rpcs).replies
          wakes := (runRpcCycle env s.server rpcs).wakes }
  /-- `run_sweep_cycle`, up to its wakes. -/
  | sweep {s : PollState n} {env : CycleEnv} {params : SweepParams} (hidle : s.Idle) :
      PollStep s (.cycle (.sweep env params))
        { s with
          server := (runSweepCycle env params s.server).server
          wakes := (runSweepCycle env params s.server).wakes }
  | reply {s : PollState n} {resp : ℕ} {r : Reply} {rest : List (ℕ × Reply)}
      (hreplies : s.replies = (resp, r) :: rest) :
      PollStep s .committer ({ s with replies := rest }.deliver resp r)
  /-- The queues are woken after the replies, in the order of a hash set. -/
  | wake {s : PollState n} {queue : String} (hreplies : s.replies = []) (hqueue : queue ∈ s.wakes) :
      PollStep s .committer ({ s with wakes := s.wakes.erase queue }.wake queue)

end Sepp
