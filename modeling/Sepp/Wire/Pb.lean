import Sepp.Wire.Bytes

/-!
# Protobuf messages

The message types of `proto/sepp/v1/queue.proto` and `proto/sepp/storage/v1/op.proto` that the
storage layer reads or writes, with the conversions of `src/pb.rs`. A `oneof` is an inductive
type, a protobuf map is the list of its entries in key order (the build asks prost for ordered
maps), and a `double` is its bit pattern.

The wire codec and `Timestamp::normalize` are prost's. They enter as the class `Prost`, with what
the code relies on: decoding inverts encoding, and normalising a timestamp whose nanoseconds are
already in range changes nothing.
-/

namespace Sepp

/-! ### Messages -/

/-- `google.protobuf.Timestamp`. -/
structure Timestamp where
  seconds : Int64
  nanos : Int32
deriving DecidableEq, Repr

/-- `google.protobuf.Duration`. -/
structure Duration where
  seconds : Int64
  nanos : Int32
deriving DecidableEq, Repr

/-- The `oneof` of `PrimitiveValue`. -/
inductive PrimitiveValue.Value where
  | stringValue (s : String)
  | doubleValue (bits : UInt64)
  | intValue (i : Int64)
  | boolValue (b : Bool)
deriving DecidableEq, Repr

/-- `sepp.v1.PrimitiveValue`, a custom value. -/
structure PrimitiveValue where
  value : Option PrimitiveValue.Value
deriving DecidableEq, Repr

/-- `sepp.v1.TraceContext`: the two headers that carry a trace on. -/
structure TraceContext where
  traceparent : String
  tracestate : Option String
deriving DecidableEq, Repr

/-- `sepp.v1.Payload`: bytes, and how a worker is to read them. -/
structure Payload where
  data : Bytes
  encoding : String
deriving DecidableEq, Repr

/-- `sepp.v1.Job`, both the stored and the delivered form. -/
structure Job where
  id : String
  jobType : String
  payload : Option Payload
  priority : UInt32
  traceContext : Option TraceContext
  enqueuedAt : Option Timestamp
  attempt : UInt32
  maxAttempts : UInt32
  leaseExpiresAt : Option Timestamp
  custom : List (String × PrimitiveValue)
  scheduledAt : Option Timestamp
  queue : String
deriving DecidableEq, Repr

/-- `sepp.v1.EnqueueRequest`: a job to be enqueued, with the values that override those of its
queue. -/
structure EnqueueRequest where
  queue : String
  jobType : String
  payload : Option Payload := none
  idempotencyKey : Option String := none
  priority : Option UInt32 := none
  maxAttempts : Option UInt32 := none
  traceContext : Option TraceContext := none
  custom : List (String × PrimitiveValue) := []
  scheduledAt : Option Timestamp := none
deriving DecidableEq, Repr

/-- `sepp.v1.EnqueueResponse`: the id of the job, and whether an earlier request had enqueued it. -/
structure EnqueueResponse where
  jobId : String
  deduplicated : Bool
deriving DecidableEq, Repr

/-- The `oneof` of `JobRejection`, restricted to the two reasons that storage gives. -/
inductive JobRejection where
  | queueFull (queue : String) (limit : UInt64)
  | queueClosing (queue : String)
deriving DecidableEq, Repr

/-- The `oneof` of `NackRetry`. -/
inductive NackRetry.Strategy where
  | default
  | delay (d : Duration)
  | deadLetter
deriving DecidableEq, Repr

/-- `sepp.v1.NackRetry`: what a worker wants to become of the job. -/
structure NackRetry where
  strategy : Option NackRetry.Strategy
deriving DecidableEq, Repr

/-- `sepp.v1.NackRequest`: the worker of a lease gives the job back. -/
structure NackRequest where
  jobId : String
  attempt : UInt32
  reason : Option String := none
  retry : Option NackRetry := none
  workerId : Option String := none
deriving DecidableEq, Repr

/-- `sepp.v1.ExtendRequest`: the worker of a lease wants more time. -/
structure ExtendRequest where
  jobId : String
  attempt : UInt32
  leaseDuration : Option Duration := none
  workerId : Option String := none
deriving DecidableEq, Repr

/-- `sepp.v1.DeadLetterCause`: why a job was given up. -/
inductive DeadLetterCause where
  | unspecified
  | attemptsExhausted
  | rejected
  | leaseExpired
  | admin
deriving DecidableEq, Repr

/-- `sepp.v1.DeadLetterRecord`: a job that was given up, with the attempt and the time that it
failed at. -/
structure DeadLetterRecord where
  job : Option Job
  cause : DeadLetterCause
  failedAt : Option Timestamp
  finalAttempt : UInt32
  lastReason : Option String
deriving DecidableEq, Repr

/-- `sepp.storage.v1.AuditRecord`. -/
structure AuditRecord where
  actor : String
  role : String
  action : String
  detailsJson : String
deriving DecidableEq, Repr

/-! ### prost -/

/-- A message type of prost: `encode_to_vec` and `decode`, with the decoding error dropped. -/
class Message (α : Type) where
  encodeToVec : α → Bytes
  decode : Bytes → Option α
  decode_encodeToVec : ∀ m, decode (encodeToVec m) = some m

attribute [simp] Message.decode_encodeToVec

/-- The parts of prost that the storage layer calls. -/
class Prost where
  job : Message Job
  payload : Message Payload
  traceContext : Message TraceContext
  deadLetterRecord : Message DeadLetterRecord
  auditRecord : Message AuditRecord
  /-- `Timestamp::normalized`. -/
  normalized : Timestamp → Timestamp
  normalized_of_canonical : ∀ ts : Timestamp,
    0 ≤ ts.nanos.toInt → ts.nanos.toInt < 1000000000 → normalized ts = ts

instance [Prost] : Message Job := Prost.job
instance [Prost] : Message Payload := Prost.payload
instance [Prost] : Message TraceContext := Prost.traceContext
instance [Prost] : Message DeadLetterRecord := Prost.deadLetterRecord
instance [Prost] : Message AuditRecord := Prost.auditRecord

/-! ### Timestamps in milliseconds -/

section Millis

variable [Prost]

/-- `millis_to_timestamp`. -/
def millisToTimestamp (ms : Int64) : Timestamp :=
  Prost.normalized
    { seconds := Int64.ofInt (ms.toInt / 1000)
      nanos := Int32.ofInt (ms.toInt % 1000 * 1000000) }

/-- `timestamp_to_millis`. -/
def timestampToMillis (ts : Timestamp) : Int64 :=
  let norm := Prost.normalized ts
  saturatingAdd (saturatingMul norm.seconds 1000) (Int64.ofInt (norm.nanos.toInt.tdiv 1000000))

omit [Prost] in
private theorem toInt_nanos (ms : Int64) :
    (Int32.ofInt (ms.toInt % 1000 * 1000000)).toInt = ms.toInt % 1000 * 1000000 := by
  have hpos := Int.emod_nonneg ms.toInt (by decide : (1000 : ℤ) ≠ 0)
  have hlt := Int.emod_lt_of_pos ms.toInt (by decide : (0 : ℤ) < 1000)
  apply Int32.toInt_ofInt_of_le <;> omega

/-- The timestamp of a stamp is already normal. -/
theorem millisToTimestamp_eq (ms : Int64) : millisToTimestamp ms =
    { seconds := Int64.ofInt (ms.toInt / 1000)
      nanos := Int32.ofInt (ms.toInt % 1000 * 1000000) } := by
  have hpos := Int.emod_nonneg ms.toInt (by decide : (1000 : ℤ) ≠ 0)
  have hlt := Int.emod_lt_of_pos ms.toInt (by decide : (0 : ℤ) < 1000)
  apply Prost.normalized_of_canonical <;> rw [toInt_nanos] <;> omega

/-- A timestamp stands for one stamp. -/
theorem millisToTimestamp_injective : Function.Injective millisToTimestamp := by
  intro ms ms' h
  rw [millisToTimestamp_eq, millisToTimestamp_eq, Timestamp.mk.injEq] at h
  have hseconds : ∀ ms : Int64, (Int64.ofInt (ms.toInt / 1000)).toInt = ms.toInt / 1000 := by
    intro ms
    have hlower := ms.le_toInt
    have hupper := ms.toInt_lt
    apply Int64.toInt_ofInt_of_le <;> omega
  have hdiv := congrArg Int64.toInt h.1
  have hmod := congrArg Int32.toInt h.2
  rw [hseconds, hseconds] at hdiv
  rw [toInt_nanos, toInt_nanos] at hmod
  exact Int64.toInt_inj.mp (by omega)

/-- A non-negative stamp survives the conversion to a protobuf timestamp and back. -/
theorem timestampToMillis_millisToTimestamp {ms : Int64} (h : 0 ≤ ms.toInt) :
    timestampToMillis (millisToTimestamp ms) = ms := by
  have hlt := ms.toInt_lt
  have hnorm : Prost.normalized (millisToTimestamp ms) = millisToTimestamp ms := by
    rw [millisToTimestamp_eq]
    apply Prost.normalized_of_canonical <;> rw [toInt_nanos] <;> omega
  have hsec : (Int64.ofInt (ms.toInt / 1000)).toInt = ms.toInt / 1000 := by
    apply Int64.toInt_ofInt_of_le <;> omega
  have hdiv : (ms.toInt % 1000 * 1000000).tdiv 1000000 = ms.toInt % 1000 :=
    Int.mul_tdiv_cancel _ (by decide)
  have hrem : (Int64.ofInt (ms.toInt % 1000)).toInt = ms.toInt % 1000 := by
    apply Int64.toInt_ofInt_of_le <;> omega
  rw [timestampToMillis, hnorm, millisToTimestamp_eq]
  simp only [toInt_nanos, hdiv]
  apply Int64.toInt_inj.mp
  rw [saturatingAdd, toInt_saturate, saturatingMul, toInt_saturate, hsec, hrem,
    show (1000 : Int64).toInt = 1000 from rfl]
  omega

end Millis

end Sepp
