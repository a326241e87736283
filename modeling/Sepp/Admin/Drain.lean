import Sepp.Run.Calls

/-!
# Draining a queue

The loop of `drain_queue` in `src/admin/routes.rs`: it purges a queue in chunks and refreshes the
tombstone of the queue between two chunks. The loop waits for the storage layer after each of its
requests, and other clients are served in between, so it is a machine that issues one operation
at a time and resumes with the answer.

## Main definitions

* `Draining`, `Draining.request`, `Draining.resume` — the loop.
* `DrainStep` — the loop and the other clients of the store.
-/

namespace Sepp

/-! ### Errors of the admin routes -/

/-- `StatusCode`, as far as `ApiError` uses it for a failed storage request. -/
inductive StatusCode where
  | badRequest
  | notFound
  | conflict
  | internalServerError
deriving DecidableEq, Repr

/-- `ApiError`, without the rejection that only enqueues carry. -/
structure ApiError where
  status : StatusCode
  code : String
  error : String
deriving DecidableEq, Repr

/-- `impl From<Status> for ApiError`. -/
def ApiError.ofStatus (status : Status) : ApiError :=
  match status.code with
  | .invalidArgument => ⟨.badRequest, "invalid_argument", status.message⟩
  | .notFound => ⟨.notFound, "not_found", status.message⟩
  | .failedPrecondition => ⟨.conflict, "failed_precondition", status.message⟩
  | .internal => ⟨.internalServerError, "internal", status.message⟩

/-! ### Requests to the storage layer -/

/-- `PURGE_CHUNK`. -/
def purgeChunk : UInt64 := 1000

/-- `PURGE_CHUNK_MAX`. -/
def purgeChunkMax : UInt64 := 1000

/-- `CLOSE_GRACE_MS`. -/
def closeGraceMs : Int64 := 30000

/-- `Storage::mismatched_outcome`. -/
def mismatchedOutcome : Status := ⟨.internal, "storage returned a mismatched op outcome"⟩

/-- The operation of `Storage::purge_queue_chunk`. -/
def purgeRequest (queue : String) (chunk : UInt64) : Op :=
  .purgeQueueChunk queue (max 1 (min chunk purgeChunkMax))

/-- The operation of `Storage::close_queue`, as the committer stamps it. -/
def closeRequest (queue : String) (now : Int64) : Op := .closeQueue queue now closeGraceMs

/-! ### The loop -/

/-- Where the loop of `drain_queue` is: waiting for a chunk, waiting for the refresh of the
tombstone, or returned. -/
inductive Draining where
  | chunk (purged : ℕ)
  | refresh (purged : ℕ)
  | returned (result : Except ApiError ℕ)

namespace Draining

/-- The operation that the loop waits for; the committer stamps it with `now`. -/
def request (queue : String) (now : Int64) : Draining → Option Op
  | chunk _ => some (purgeRequest queue purgeChunk)
  | refresh _ => some (closeRequest queue now)
  | returned _ => none

/-- The error of a failed chunk: a worker reserved a job in the meantime, or anything else. -/
def chunkError (status : Status) : ApiError :=
  match status.code with
  | .failedPrecondition => ⟨.conflict, "inflight", status.message⟩
  | _ => .ofStatus status

/-- The loop goes on with the answer. -/
def resume : Draining → Except Status OpOutcome → Draining
  | chunk purged, .ok (.purgeQueueChunk outcome) =>
    if outcome.remaining then refresh (purged + outcome.purged)
    else returned (.ok (purged + outcome.purged))
  | chunk _, .ok _ => returned (.error (chunkError mismatchedOutcome))
  | chunk _, .error status => returned (.error (chunkError status))
  | refresh purged, .ok .closeQueue => chunk purged
  | refresh _, .ok _ => returned (.error (.ofStatus mismatchedOutcome))
  | refresh _, .error status => returned (.error (.ofStatus status))
  | returned result, _ => returned result

/-- The loop is over. -/
def Returned : Draining → Prop
  | returned _ => True
  | _ => False

end Draining

/-- Who a call of the storage layer is from. -/
inductive Client where
  | loop
  | other
deriving DecidableEq

/-- The loop, and whatever other clients do in between. -/
inductive DrainStep [Prost] (queue : String) :
    Server × Draining → Client × Call → Server × Draining → Prop
  | loop {server server' : Server} {d : Draining} {now : Int64} {op : Op}
      {result : Except Status OpOutcome} (hrequest : d.request queue now = some op)
      (hcall : CallStep server (.answered op result) server') :
      DrainStep queue (server, d) (.loop, .answered op result) (server', d.resume result)
  | other {server server' : Server} {d : Draining} {call : Call}
      (hcall : CallStep server call server') :
      DrainStep queue (server, d) (.other, call) (server', d)

/-- The requests of the loop that were answered. -/
def loopRequests (labels : List (Client × Call)) : ℕ :=
  labels.countP fun label => label.1 = .loop

/-- The successful chunks of the loop. -/
def successfulChunks (labels : List (Client × Call)) : ℕ :=
  labels.countP fun label =>
    match label with
    | (.loop, .answered (.purgeQueueChunk ..) (.ok _)) => true
    | _ => false

end Sepp
