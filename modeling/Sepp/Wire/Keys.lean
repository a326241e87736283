import Sepp.Library.BigEndian
import Sepp.Wire.Pb

/-!
# Row keys and row values

`src/keys.rs`: the byte layout of the keys and values of every keyspace. A key is written by
appending fields (`KeyWriter`) and read by consuming them from the front (`KeyReader`). Integers
are big-endian, so byte order follows numeric order on non-negative timestamps; a queue name is
preceded by its length in two bytes, so no name is confused with an extension of it.

Reading a key or a value that was written gives the fields back, for queue names of at most
`65535` bytes, which is what the two-byte length holds (`FitsPrefix`).

## Main definitions

* `ReadyKey`, `TimerKey`, `DedupKey`, `DedupTimerKey`, `DeadLetterKey`, `closingKey` — the keys.
* `DedupValue`, `AuditValue`, `JobValue`, `Inflight` — the values.
* `readQueue`, `deadlineOf` — the accessors shared by several keyspaces.
-/

namespace Sepp

/-! ### Status codes -/

/-- The gRPC codes that the storage layer answers with. -/
inductive Code where
  | notFound
  | failedPrecondition
  | invalidArgument
  | internal
deriving DecidableEq, Repr

/-- `tonic::Status`. -/
structure Status where
  code : Code
  message : String
deriving DecidableEq, Repr

/-! ### Writing -/

namespace KeyWriter

/-- `KeyWriter::u32`. -/
def u32 (v : UInt32) : Bytes := BigEndian.toBytes 4 v.toNat

/-- `KeyWriter::i64`. -/
def i64 (v : Int64) : Bytes := BigEndian.toBytes 8 v.toUInt64.toNat

/-- `KeyWriter::prefixed`: a length-prefixed field, the length cut to sixteen bits. -/
def prefixed (bytes : Bytes) : Bytes := BigEndian.toBytes 2 bytes.length ++ bytes

@[simp]
theorem length_u32 (v : UInt32) : (u32 v).length = 4 := BigEndian.length_toBytes _ _

@[simp]
theorem length_i64 (v : Int64) : (i64 v).length = 8 := BigEndian.length_toBytes _ _

end KeyWriter

/-! ### Reading -/

/-- `KeyReader`: the bytes not yet consumed, threaded through reads that may run out. -/
abbrev KeyReader := StateT Bytes Option

namespace KeyReader

/-- `KeyReader::take`. -/
def take (n : ℕ) : KeyReader Bytes := fun bytes =>
  if n ≤ bytes.length then some (bytes.take n, bytes.drop n) else none

/-- `KeyReader::u8`. -/
def u8 : KeyReader UInt8 := do return UInt8.ofNat (BigEndian.ofBytes (← take 1))

/-- `KeyReader::u32`. -/
def u32 : KeyReader UInt32 := do return UInt32.ofNat (BigEndian.ofBytes (← take 4))

/-- `KeyReader::i64`. -/
def i64 : KeyReader Int64 := do return (UInt64.ofNat (BigEndian.ofBytes (← take 8))).toInt64

/-- `KeyReader::prefixed`. -/
def prefixed : KeyReader Bytes := do take (BigEndian.ofBytes (← take 2))

/-- `KeyReader::prefixed_str`. -/
def prefixedStr : KeyReader String := do StateT.lift (fromUtf8 (← prefixed))

/-- `KeyReader::tail`. -/
def tail : KeyReader Bytes := fun bytes => some (bytes, [])

/-- `KeyReader::tail_str`. -/
def tailStr : KeyReader String := do StateT.lift (fromUtf8 (← tail))

/-- Runs a reader over all of `bytes` and keeps what it read. -/
def parse {α : Type} (r : KeyReader α) (bytes : Bytes) : Option α := (r bytes).map Prod.fst

section Apply

variable {α β : Type} (bytes : Bytes)

theorem pure_apply (a : α) : (pure a : KeyReader α) bytes = some (a, bytes) := rfl

theorem bind_apply (r : KeyReader α) (f : α → KeyReader β) :
    (r >>= f) bytes = (r bytes).bind fun (a, rest) => f a rest := rfl

theorem map_apply (f : α → β) (r : KeyReader α) :
    (f <$> r) bytes = (r bytes).map fun (a, rest) => (f a, rest) := by
  rw [map_eq_pure_bind, bind_apply]
  cases r bytes <;> rfl

theorem lift_apply (x : Option α) :
    (StateT.lift x : KeyReader α) bytes = x.map fun a => (a, bytes) := by
  cases x <;> rfl

end Apply

theorem take_append {a : Bytes} (b : Bytes) {n : ℕ} (h : a.length = n) :
    take n (a ++ b) = some (a, b) := by
  subst h
  simp [take]

theorem u8_cons (b : UInt8) (rest : Bytes) : u8 (b :: rest) = some (b, rest) := by
  have h : take 1 (b :: rest) = some ([b], rest) := take_append (a := [b]) rest rfl
  simp [u8, bind_apply, h, pure_apply, BigEndian.ofBytes]

theorem u32_append (v : UInt32) (rest : Bytes) :
    u32 (KeyWriter.u32 v ++ rest) = some (v, rest) := by
  have h := take_append rest (KeyWriter.length_u32 v)
  have hv : BigEndian.ofBytes (KeyWriter.u32 v) = v.toNat :=
    BigEndian.ofBytes_toBytes_of_lt (by simpa using v.toNat_lt)
  simp [u32, bind_apply, h, pure_apply, hv]

theorem i64_append (v : Int64) (rest : Bytes) :
    i64 (KeyWriter.i64 v ++ rest) = some (v, rest) := by
  have h := take_append rest (KeyWriter.length_i64 v)
  have hv : BigEndian.ofBytes (KeyWriter.i64 v) = v.toUInt64.toNat :=
    BigEndian.ofBytes_toBytes_of_lt (by simpa using v.toUInt64.toNat_lt)
  have hback : (UInt64.ofNat v.toUInt64.toNat).toInt64 = v := by
    rw [UInt64.ofNat_toNat, Int64.toInt64_toUInt64]
  simp only [i64, bind_apply, h, pure_apply, hv, Option.bind_some, hback]

theorem prefixed_append {bytes : Bytes} (rest : Bytes) (h : bytes.length ≤ 65535) :
    prefixed (KeyWriter.prefixed bytes ++ rest) = some (bytes, rest) := by
  have hlen : BigEndian.ofBytes (BigEndian.toBytes 2 bytes.length) = bytes.length :=
    BigEndian.ofBytes_toBytes_of_lt (by omega)
  have h2 : take 2 (KeyWriter.prefixed bytes ++ rest) =
      some (BigEndian.toBytes 2 bytes.length, bytes ++ rest) := by
    rw [KeyWriter.prefixed, List.append_assoc]
    exact take_append _ (BigEndian.length_toBytes _ _)
  simp [prefixed, bind_apply, h2, hlen, take_append rest rfl]

theorem tail_apply (bytes : Bytes) : tail bytes = some (bytes, []) := rfl

end KeyReader

/-! ### Shared accessors -/

/-- The queue name fits the two-byte length that precedes it. -/
def FitsPrefix (queue : String) : Prop := (asBytes queue).length ≤ 65535

instance (queue : String) : Decidable (FitsPrefix queue) := inferInstanceAs (Decidable (_ ≤ _))

/-- `queue_prefix`. -/
def queuePrefix (queue : String) : Bytes := KeyWriter.prefixed (asBytes queue)

/-- `read_queue`. -/
def readQueue (bytes : Bytes) : Option String := KeyReader.prefixedStr.parse bytes

/-- `deadline_of`. -/
def deadlineOf (key : Bytes) : Int64 := (KeyReader.i64.parse key).getD 0

theorem KeyReader.prefixedStr_append {queue : String} (rest : Bytes) (h : FitsPrefix queue) :
    KeyReader.prefixedStr (queuePrefix queue ++ rest) = some (queue, rest) := by
  simp [prefixedStr, bind_apply, queuePrefix, prefixed_append rest h, lift_apply]

theorem readQueue_append {queue : String} (rest : Bytes) (h : FitsPrefix queue) :
    readQueue (queuePrefix queue ++ rest) = some queue := by
  simp [readQueue, KeyReader.parse, KeyReader.prefixedStr_append rest h]

theorem deadlineOf_append (deadline : Int64) (rest : Bytes) :
    deadlineOf (KeyWriter.i64 deadline ++ rest) = deadline := by
  simp [deadlineOf, KeyReader.parse, KeyReader.i64_append]

/-! ### Keys -/

/-- Key into `ready`: `queue | inverted_priority | enqueued_at | job_id`. -/
structure ReadyKey where
  queue : String
  priority : UInt32
  enqueuedAt : Int64
  jobId : String
deriving DecidableEq, Repr

namespace ReadyKey

/-- `priority.min(9)`. -/
def clampPriority (priority : UInt32) : UInt32 := UInt32.ofNat (min priority.toNat 9)

/-- `9u8.saturating_sub(priority.min(9) as u8)`. -/
def invertPriority (priority : UInt32) : UInt8 := UInt8.ofNat (9 - min priority.toNat 9)

/-- `ReadyKey::encode`. -/
def encode (k : ReadyKey) : Bytes :=
  queuePrefix k.queue ++ (invertPriority k.priority :: (KeyWriter.i64 k.enqueuedAt ++
    asBytes k.jobId))

/-- `ReadyKey::decode`. -/
def decode (bytes : Bytes) : Option ReadyKey :=
  KeyReader.parse (do
    let queue ← KeyReader.prefixedStr
    let inverted ← KeyReader.u8
    let enqueuedAt ← KeyReader.i64
    let jobId ← KeyReader.tailStr
    return { queue, priority := UInt32.ofNat (9 - inverted.toNat), enqueuedAt, jobId }) bytes

private theorem ofNat_invertPriority (priority : UInt32) :
    UInt32.ofNat (9 - (invertPriority priority).toNat) = clampPriority priority := by
  have hle : min priority.toNat 9 ≤ 9 := min_le_right _ _
  have hbyte : (invertPriority priority).toNat = 9 - min priority.toNat 9 := by
    rw [invertPriority, UInt8.toNat_ofNat']
    omega
  rw [hbyte, clampPriority]
  congr 1
  omega

/-- Decoding an encoded key gives it back, the priority clamped to `9`. -/
theorem decode_encode {k : ReadyKey} (h : FitsPrefix k.queue) :
    decode k.encode = some { k with priority := clampPriority k.priority } := by
  simp [decode, encode, KeyReader.parse, KeyReader.bind_apply, KeyReader.prefixedStr_append _ h,
    KeyReader.u8_cons, KeyReader.i64_append, KeyReader.tailStr, KeyReader.tail_apply,
    KeyReader.lift_apply,
    KeyReader.map_apply, ofNat_invertPriority]

theorem readQueue_encode {k : ReadyKey} (h : FitsPrefix k.queue) :
    readQueue k.encode = some k.queue :=
  readQueue_append _ h

end ReadyKey

/-- Key into `scheduled` and `leases`: `deadline | job_id`. -/
structure TimerKey where
  deadline : Int64
  jobId : String
deriving DecidableEq, Repr

namespace TimerKey

/-- `TimerKey::encode`. -/
def encode (k : TimerKey) : Bytes := KeyWriter.i64 k.deadline ++ asBytes k.jobId

/-- `TimerKey::job_id`. -/
def jobIdOf (key : Bytes) : Option Bytes :=
  KeyReader.parse (do
    let _ ← KeyReader.i64
    KeyReader.tail) key

theorem jobIdOf_encode (k : TimerKey) : jobIdOf k.encode = some (asBytes k.jobId) := by
  simp [jobIdOf, encode, KeyReader.parse, KeyReader.bind_apply, KeyReader.i64_append,
    KeyReader.tail_apply]

theorem deadlineOf_encode (k : TimerKey) : deadlineOf k.encode = k.deadline :=
  deadlineOf_append _ _

theorem encode_injective : Function.Injective encode := by
  intro a b h
  have hid := congrArg jobIdOf h
  have hdl := congrArg deadlineOf h
  simp only [jobIdOf_encode, Option.some.injEq, asBytes_inj] at hid
  simp only [deadlineOf_encode] at hdl
  cases a
  cases b
  simp_all

end TimerKey

/-- `CLOSING_PREFIX`. -/
def closingPrefix : Bytes := asBytes "closing/"

/-- Key in `meta` marking a queue as closing: `"closing/" | queue`. -/
def closingKey (queue : String) : Bytes := closingPrefix ++ asBytes queue

/-- `closing_queue`. -/
def closingQueue (key : Bytes) : Option String :=
  if closingPrefix.isPrefixOf key then fromUtf8 (key.drop closingPrefix.length) else none

@[simp]
theorem closingQueue_closingKey (queue : String) :
    closingQueue (closingKey queue) = some queue := by
  simp [closingQueue, closingKey]

/-- `AUDIT_SEQ_KEY`. -/
def auditSeqKey : Bytes := asBytes "audit_seq"

/-- Key into `dedup`: `queue | idempotency_key`. -/
structure DedupKey where
  queue : String
  idempotencyKey : String
deriving DecidableEq, Repr

namespace DedupKey

/-- `DedupKey::encode`. -/
def encode (k : DedupKey) : Bytes := queuePrefix k.queue ++ asBytes k.idempotencyKey

/-- Keys of different queues never meet, and one queue tells its keys apart. -/
theorem encode_inj {a b : DedupKey} (ha : FitsPrefix a.queue) (hb : FitsPrefix b.queue)
    (h : a.encode = b.encode) : a = b := by
  have hread := congrArg KeyReader.prefixedStr h
  rw [encode, encode, KeyReader.prefixedStr_append _ ha, KeyReader.prefixedStr_append _ hb,
    Option.some.injEq, Prod.mk.injEq, asBytes_inj] at hread
  cases a
  cases b
  simp_all

end DedupKey

/-- Value in `dedup`: `enqueued_at | deadline | job_id`. -/
structure DedupValue where
  enqueuedAt : Int64
  deadline : Int64
  jobId : String
deriving DecidableEq, Repr

namespace DedupValue

/-- `DedupValue::encode`. -/
def encode (v : DedupValue) : Bytes :=
  KeyWriter.i64 v.enqueuedAt ++ (KeyWriter.i64 v.deadline ++ asBytes v.jobId)

/-- `DedupValue::decode`. -/
def decode (bytes : Bytes) : Option DedupValue :=
  KeyReader.parse (do
    let enqueuedAt ← KeyReader.i64
    let deadline ← KeyReader.i64
    let jobId ← KeyReader.tailStr
    return { enqueuedAt, deadline, jobId }) bytes

@[simp]
theorem decode_encode (v : DedupValue) : decode v.encode = some v := by
  simp [decode, encode, KeyReader.parse, KeyReader.bind_apply, KeyReader.i64_append,
    KeyReader.tailStr, KeyReader.tail_apply, KeyReader.lift_apply, KeyReader.map_apply]

end DedupValue

/-- Key into `dedup_timers`: `deadline | dedup_key`. -/
structure DedupTimerKey where
  deadline : Int64
  dedupKey : Bytes
deriving DecidableEq, Repr

namespace DedupTimerKey

/-- `DedupTimerKey::encode`. -/
def encode (k : DedupTimerKey) : Bytes := KeyWriter.i64 k.deadline ++ k.dedupKey

/-- `DedupTimerKey::dedup_key`. -/
def dedupKeyOf (key : Bytes) : Option Bytes :=
  KeyReader.parse (do
    let _ ← KeyReader.i64
    KeyReader.tail) key

/-- `DedupTimerKey::queue`. -/
def queueOf (key : Bytes) : Option String := (dedupKeyOf key).bind readQueue

@[simp]
theorem dedupKeyOf_encode (k : DedupTimerKey) : dedupKeyOf k.encode = some k.dedupKey := by
  simp [dedupKeyOf, encode, KeyReader.parse, KeyReader.bind_apply, KeyReader.i64_append,
    KeyReader.tail_apply]

theorem deadlineOf_encode (k : DedupTimerKey) : deadlineOf k.encode = k.deadline :=
  deadlineOf_append _ _

end DedupTimerKey

/-- Key into `dead_letter`: `failed_at | queue | job_id`. -/
structure DeadLetterKey where
  failedAt : Int64
  queue : String
  jobId : Bytes
deriving DecidableEq, Repr

namespace DeadLetterKey

/-- `DeadLetterKey::encode`. -/
def encode (k : DeadLetterKey) : Bytes :=
  KeyWriter.i64 k.failedAt ++ (queuePrefix k.queue ++ k.jobId)

/-- `DeadLetterKey::queue`. -/
def queueOf (key : Bytes) : Option String :=
  (KeyReader.parse (do
    let _ ← KeyReader.i64
    KeyReader.tail) key).bind readQueue

/-- `DeadLetterKey::job_id`. -/
def jobIdOf (key : Bytes) : Option String :=
  KeyReader.parse (do
    let _ ← KeyReader.i64
    let _ ← KeyReader.prefixedStr
    KeyReader.tailStr) key

theorem queueOf_encode {k : DeadLetterKey} (h : FitsPrefix k.queue) :
    queueOf k.encode = some k.queue := by
  simp [queueOf, encode, KeyReader.parse, KeyReader.bind_apply, KeyReader.i64_append,
    KeyReader.tail_apply, readQueue_append _ h]

theorem jobIdOf_encode {k : DeadLetterKey} (h : FitsPrefix k.queue) :
    jobIdOf k.encode = fromUtf8 k.jobId := by
  simp [jobIdOf, encode, KeyReader.parse, KeyReader.bind_apply, KeyReader.i64_append,
    KeyReader.prefixedStr_append _ h, KeyReader.tailStr, KeyReader.tail_apply, KeyReader.lift_apply,
    Function.comp_def]

theorem deadlineOf_encode (k : DeadLetterKey) : deadlineOf k.encode = k.failedAt :=
  deadlineOf_append _ _

end DeadLetterKey

/-! ### Values that embed a message -/

/-- `value.first_chunk::<4>().map(u32::from_be_bytes)`: the attempt kept in a `ready` or
`scheduled` row. -/
def attemptOfRow (value : Bytes) : Option UInt32 := KeyReader.u32.parse value

@[simp]
theorem attemptOfRow_u32 (attempt : UInt32) :
    attemptOfRow (KeyWriter.u32 attempt) = some attempt := by
  have h := KeyReader.u32_append attempt []
  rw [List.append_nil] at h
  simp [attemptOfRow, KeyReader.parse, h]

/-- `value.first_chunk::<8>().map(i64::from_be_bytes)`: the deadline kept in a `closing/` row. -/
def deadlineOfRow (value : Bytes) : Option Int64 := KeyReader.i64.parse value

@[simp]
theorem deadlineOfRow_i64 (deadline : Int64) :
    deadlineOfRow (KeyWriter.i64 deadline) = some deadline := by
  have h := KeyReader.i64_append deadline []
  rw [List.append_nil] at h
  simp [deadlineOfRow, KeyReader.parse, h]

section Messages

variable [Prost]

/-- Value in `audit`: `ts_ms | protobuf(AuditRecord)`. -/
structure AuditValue where
  tsMs : Int64
  record : AuditRecord

namespace AuditValue

/-- `AuditValue::encode`. -/
def encode (v : AuditValue) : Bytes :=
  KeyWriter.i64 v.tsMs ++ Message.encodeToVec v.record

/-- `AuditValue::decode`. -/
def decode (bytes : Bytes) : Option (Int64 × AuditRecord) :=
  KeyReader.parse (do
    let tsMs ← KeyReader.i64
    let tail ← KeyReader.tail
    let record ← StateT.lift (Message.decode tail)
    return (tsMs, record)) bytes

theorem decode_encode (v : AuditValue) : decode v.encode = some (v.tsMs, v.record) := by
  simp [decode, encode, KeyReader.parse, KeyReader.bind_apply, KeyReader.i64_append,
    KeyReader.tail_apply, KeyReader.lift_apply, KeyReader.map_apply]

end AuditValue

/-- Value in `jobs`: `queue | protobuf(job)`. -/
structure JobValue where
  queue : String
  job : Job

namespace JobValue

/-- `JobValue::encode`. -/
def encode (v : JobValue) : Bytes := queuePrefix v.queue ++ Message.encodeToVec v.job

/-- `JobValue::decode`. -/
def decode (bytes : Bytes) : Except Status (String × Job) :=
  let corrupt : Status := ⟨.internal, "corrupt job record"⟩
  match KeyReader.prefixedStr bytes with
  | none => .error corrupt
  | some (queue, tail) =>
    match Message.decode (α := Job) tail with
    | none => .error corrupt
    | some job => .ok (queue, job)

theorem decode_encode {v : JobValue} (h : FitsPrefix v.queue) :
    decode v.encode = .ok (v.queue, v.job) := by
  simp [decode, encode, KeyReader.prefixedStr_append _ h]

theorem readQueue_encode {v : JobValue} (h : FitsPrefix v.queue) :
    readQueue v.encode = some v.queue :=
  readQueue_append _ h

end JobValue

/-- Value in `inflight`. -/
structure Inflight where
  attempt : UInt32
  leaseExpiresAt : Int64
  enqueuedAt : Int64
  priority : UInt32
  maxAttempts : UInt32
  queue : String
  traceContext : Option TraceContext

namespace Inflight

/-- `trace_context.as_ref().map(Message::encode_to_vec).unwrap_or_default()`. -/
def traceBytes (traceContext : Option TraceContext) : Bytes :=
  (traceContext.map Message.encodeToVec).getD []

/-- The trace context read back from its bytes; no bytes at all stand for none. -/
def traceOfBytes (bytes : Bytes) : Option (Option TraceContext) :=
  if bytes.isEmpty then some none else (Message.decode bytes).map some

/-- `Inflight::encode`. -/
def encode (v : Inflight) : Bytes :=
  KeyWriter.u32 v.attempt ++ (KeyWriter.i64 v.leaseExpiresAt ++ (KeyWriter.i64 v.enqueuedAt ++
    (KeyWriter.u32 v.priority ++ (KeyWriter.u32 v.maxAttempts ++ (queuePrefix v.queue ++
      traceBytes v.traceContext)))))

/-- `Inflight::decode`. -/
def decode (bytes : Bytes) : Except Status Inflight :=
  let parse : KeyReader Inflight := do
    let attempt ← KeyReader.u32
    let leaseExpiresAt ← KeyReader.i64
    let enqueuedAt ← KeyReader.i64
    let priority ← KeyReader.u32
    let maxAttempts ← KeyReader.u32
    let queue ← KeyReader.prefixedStr
    let tcBytes ← KeyReader.tail
    let traceContext ← StateT.lift (traceOfBytes tcBytes)
    return { attempt, leaseExpiresAt, enqueuedAt, priority, maxAttempts, queue, traceContext }
  match parse.parse bytes with
  | some v => .ok v
  | none => .error ⟨.internal, "corrupt inflight record"⟩

/-- A context whose encoding is empty is read back as no context. -/
def storedTrace (traceContext : Option TraceContext) : Option TraceContext :=
  if (traceBytes traceContext).isEmpty then none else traceContext

theorem traceOfBytes_traceBytes (tc : Option TraceContext) :
    traceOfBytes (traceBytes tc) = some (storedTrace tc) := by
  unfold traceOfBytes storedTrace
  split
  · rfl
  · cases tc with
    | none => simp_all [traceBytes]
    | some tc => simp [traceBytes]

theorem traceBytes_storedTrace (tc : Option TraceContext) :
    traceBytes (storedTrace tc) = traceBytes tc := by
  unfold storedTrace
  split_ifs with hempty
  · exact (List.isEmpty_iff.mp hempty).symm
  · rfl

theorem decode_encode {v : Inflight} (h : FitsPrefix v.queue) :
    decode v.encode = .ok { v with traceContext := storedTrace v.traceContext } := by
  simp [decode, encode, KeyReader.parse, KeyReader.bind_apply, KeyReader.u32_append,
    KeyReader.i64_append, KeyReader.prefixedStr_append _ h, KeyReader.tail_apply,
    traceOfBytes_traceBytes, KeyReader.lift_apply, KeyReader.map_apply]

end Inflight

end Messages

end Sepp
