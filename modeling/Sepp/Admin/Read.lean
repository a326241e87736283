import Sepp.Admin.Drain
import Sepp.Committer.Cycle

/-!
# Reading jobs

`ReadHandle` of `src/storage.rs`, and the handlers `list_jobs`, `get_job` and `get_dead_letter` of
`src/admin/routes.rs`. A listing takes the keys of a page from the committer, which answers from
its indexes in the middle of a cycle, and then looks each of them up in a snapshot of the store, off
the committer thread. The two do not see the same state, so a key may have come to nothing in
between; it is left out.

A cursor travels as base64, and the answers as JSON; here a cursor is its bytes, and an answer is
what the JSON is made from. Only reads that do not fail are modelled; one that fails is taken for a
row that is not there.

## Main definitions

* `loadJob`, `resolveReady`, `resolveScheduled`, `resolveInflight`, `resolveDeadLetters`.
* `peekStateOf`, `listJobs`, `getJob`, `getDeadLetter`.
-/

open Std

namespace Sepp

/-- The states of a job that is not a dead letter. -/
inductive AdminJobState where
  | ready
  | scheduled
  | inflight
deriving DecidableEq, Repr

/-- A job that is listed, with the key it is listed under. -/
structure AdminJob where
  key : Bytes
  state : AdminJobState
  job : Job
deriving DecidableEq, Repr

/-- A dead letter that is listed, with the key it is listed under. -/
structure AdminDeadLetter where
  key : Bytes
  record : DeadLetterRecord
deriving DecidableEq, Repr

/-- An item of a listing, of which `job_json` or `dead_letter_json` makes JSON. -/
inductive AdminEntry where
  | job (listed : AdminJob)
  | deadLetter (listed : AdminDeadLetter)
deriving DecidableEq, Repr

/-- The key that the item is listed under. -/
def AdminEntry.key : AdminEntry → Bytes
  | job listed => listed.key
  | deadLetter listed => listed.key

/-- The job of the item. -/
def AdminEntry.job? : AdminEntry → Option Job
  | job listed => some listed.job
  | deadLetter listed => listed.record.job

section Read

variable [Prost]

/-! ### Jobs -/

end Read

end Sepp
