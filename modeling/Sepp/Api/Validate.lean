import Sepp.Config.Limits
import Sepp.Wire.Pb

/-!
# Request validation

The structural rules of `src/validate.rs` for the requests that enqueue, reserve and extend, with
their messages. A check is ok or it ends with the message of the first rule that is broken.

## Main definitions

* `enqueueRequest`, `reserveRequest`, `extendRequest` — the checks of the source.
* `EnqueueRequest.WellFormed` — the rules for an enqueue.

## Main results

* `enqueueRequest_ok_iff`.
-/

namespace Sepp

/-- `sepp.v1.ReserveRequest`: a worker asks for jobs of the queues, and may wait for them. -/
structure ReserveRequest where
  queues : List String
  waitTimeout : Option Duration := none
  leaseDuration : Option Duration := none
  workerId : Option String := none
  maxJobs : Option UInt32 := none
deriving DecidableEq, Repr

/-- `Check` of `src/validate.rs`. -/
abbrev Check := Except String Unit

namespace Validate

/-- `min_len`. -/
def minLen (field s : String) : Check := refuseIf (s = "") (field ++ " must not be empty")

/-- `queue_name`. -/
def queueName (field name : String) : Check :=
  match queueNameError name with
  | some why => .error (field ++ " " ++ why)
  | none => .ok ()

/-- `lte`. -/
def lte (field : String) (value max : UInt32) : Check :=
  refuseIf (max < value) (field ++ " must be <= " ++ toString max)

/-- `gte`. -/
def gte (field : String) (value min : UInt32) : Check :=
  refuseIf (value < min) (field ++ " must be >= " ++ toString min)

/-- `payload`. -/
def payload (p : Payload) : Check := do
  refuseIf (p.data = []) "payload.data must not be empty"
  minLen "payload.encoding" p.encoding

/-- `trace_context`. -/
def traceContext (tc : TraceContext) : Check :=
  minLen "trace_context.traceparent" tc.traceparent

/-- `primitive_value`. -/
def primitiveValue (key : String) (v : PrimitiveValue) : Check :=
  refuseIf v.value.isNone ("custom[" ++ key ++ "] must set a value")

/-- A check of a field that may be unset. -/
def ifSet {α : Type} (field : Option α) (check : α → Check) : Check :=
  match field with
  | some value => check value
  | none => .ok ()

/-- The loop over the custom map. -/
def custom : List (String × PrimitiveValue) → Check
  | [] => .ok ()
  | (key, value) :: entries => do
    minLen "custom key" key
    primitiveValue key value
    custom entries

/-- `enqueue_request`. -/
def enqueueRequest (req : EnqueueRequest) : Check := do
  queueName "queue" req.queue
  minLen "job_type" req.jobType
  ifSet req.payload payload
  ifSet req.idempotencyKey (minLen "idempotency_key")
  ifSet req.priority (lte "priority" · 9)
  ifSet req.maxAttempts (gte "max_attempts" · 1)
  ifSet req.traceContext traceContext
  custom req.custom

/-- `total_nanos`. -/
def totalNanos (d : Duration) : ℤ := d.seconds.toInt * 1000000000 + d.nanos.toInt

/-- `non_negative`. -/
def nonNegative (field : String) (d : Duration) : Check :=
  refuseIf (totalNanos d < 0) (field ++ " must not be negative")

/-- `positive`. -/
def positive (field : String) (d : Duration) : Check :=
  refuseIf (totalNanos d ≤ 0) (field ++ " must be greater than 0")

/-- A lease duration is required. -/
def leaseDuration (d : Option Duration) : Check :=
  match d with
  | some d => positive "lease_duration" d
  | none => .error "lease_duration is required"

/-- The loop over the queues of a reserve. -/
def queuesItems : List String → Check
  | [] => .ok ()
  | queue :: queues => do
    queueName "queues item" queue
    queuesItems queues

/-- `reserve_request`. -/
def reserveRequest (req : ReserveRequest) : Check := do
  refuseIf (req.queues = []) "queues must contain at least 1 item"
  queuesItems req.queues
  ifSet req.waitTimeout (nonNegative "wait_timeout")
  leaseDuration req.leaseDuration
  ifSet req.workerId (minLen "worker_id")
  ifSet req.maxJobs (gte "max_jobs" · 1)

/-- `is_uuid`: the canonical form with hyphens, in either case. -/
def isUuid (s : String) : Bool :=
  let b := asBytes s
  b.length = 36 && b.zipIdx.all fun (c, i) =>
    if i = 8 ∨ i = 13 ∨ i = 18 ∨ i = 23 then c = 0x2D
    else (0x30 ≤ c && c ≤ 0x39) || (0x41 ≤ c && c ≤ 0x46) || (0x61 ≤ c && c ≤ 0x66)

/-- `uuid`. -/
def uuid (field s : String) : Check := refuseIf (!isUuid s) (field ++ " must be a UUID")

/-- `extend_request`. -/
def extendRequest (req : ExtendRequest) : Check := do
  uuid "job_id" req.jobId
  gte "attempt" req.attempt 1
  leaseDuration req.leaseDuration
  ifSet req.workerId (minLen "worker_id")

/-! ### The rules -/

theorem ifSet_ok_iff {α : Type} {field : Option α} {check : α → Check} :
    ifSet field check = .ok () ↔ ∀ value ∈ field, check value = .ok () := by
  cases field <;> simp [ifSet]

theorem queueName_ok_iff {field name : String} :
    queueName field name = .ok () ↔ queueNameError name = none := by
  rw [queueName]
  cases queueNameError name <;> simp

theorem minLen_ok_iff {field s : String} : minLen field s = .ok () ↔ s ≠ "" := by
  rw [minLen, refuseIf_ok_iff, decide_eq_false_iff_not]

theorem custom_ok_iff {entries : List (String × PrimitiveValue)} :
    custom entries = .ok () ↔ ∀ entry ∈ entries, entry.1 ≠ "" ∧ entry.2.value ≠ none := by
  induction entries with
  | nil => simp [custom]
  | cons entry entries ih =>
    rw [custom, except_bind_eq_ok_iff, except_bind_eq_ok_iff, ih, minLen_ok_iff, primitiveValue,
      refuseIf_ok_iff, List.forall_mem_cons, and_assoc, Option.isNone_eq_false_iff,
      Option.isSome_iff_ne_none]

end Validate

/-- A queue name that keys, routes and operators can address. -/
structure ValidQueueName (name : String) : Prop where
  ne_empty : name ≠ ""
  ne_dot : name ≠ "."
  ne_dots : name ≠ ".."
  no_slash : '/' ∉ name.toList
  no_control : ∀ c ∈ name.toList, isControl c = false

theorem queueNameError_eq_none_iff {name : String} :
    queueNameError name = none ↔ ValidQueueName name := by
  rw [queueNameError]
  split_ifs with hempty hdots hslash hcontrol
  · exact iff_of_false (by simp) fun h => h.ne_empty hempty
  · exact iff_of_false (by simp) fun h => hdots.elim h.ne_dot h.ne_dots
  · exact iff_of_false (by simp) fun h => h.no_slash (by simpa using hslash)
  · refine iff_of_false (by simp) fun h => ?_
    obtain ⟨c, hc, htrue⟩ := List.any_eq_true.mp hcontrol
    cases (h.no_control c hc).symm.trans htrue
  · refine iff_of_true rfl ⟨hempty, fun h => hdots (.inl h), fun h => hdots (.inr h), ?_, ?_⟩
    · simpa using hslash
    · simpa using hcontrol

/-- The structural rules for an enqueue. -/
structure EnqueueRequest.WellFormed (req : EnqueueRequest) : Prop where
  queue : ValidQueueName req.queue
  jobType : req.jobType ≠ ""
  payload : ∀ p ∈ req.payload, p.data ≠ [] ∧ p.encoding ≠ ""
  idempotencyKey : ∀ key ∈ req.idempotencyKey, key ≠ ""
  priority : ∀ p ∈ req.priority, p ≤ 9
  maxAttempts : ∀ m ∈ req.maxAttempts, 1 ≤ m
  traceContext : ∀ tc ∈ req.traceContext, tc.traceparent ≠ ""
  custom : ∀ entry ∈ req.custom, entry.1 ≠ "" ∧ entry.2.value ≠ none

theorem Validate.enqueueRequest_ok_iff {req : EnqueueRequest} :
    Validate.enqueueRequest req = .ok () ↔ req.WellFormed := by
  simp only [Validate.enqueueRequest, except_bind_eq_ok_iff, queueName_ok_iff,
    queueNameError_eq_none_iff, minLen_ok_iff, ifSet_ok_iff, custom_ok_iff, payload,
    traceContext, lte, gte, refuseIf_ok_iff, decide_eq_false_iff_not, UInt32.not_lt]
  constructor
  · rintro ⟨h1, h2, h3, h4, h5, h6, h7, h8⟩
    exact ⟨h1, h2, h3, h4, h5, h6, h7, h8⟩
  · rintro ⟨h1, h2, h3, h4, h5, h6, h7, h8⟩
    exact ⟨h1, h2, h3, h4, h5, h6, h7, h8⟩

end Sepp
