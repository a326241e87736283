import Sepp.Library.Protobuf
import Sepp.Wire.Pb

/-!
# A codec for the messages

The messages of the storage layer in the protobuf wire format, with the field numbers of the
`.proto` files. A proto3 scalar at its default is left out; an entry of a map is a message of its
key and value. This is an instance of what the storage layer asks of prost, on which the model can
be evaluated.

## Main definitions

* `Message.ofFields` — a message type from its fields.
* `WireFormat.wireProst` — the instance.
-/

open Protobuf

namespace Sepp

/-! ### Field values -/

namespace Wire

/-- A `string` field. -/
def string (s : String) : Option Value := if s = "" then none else some (.len (asBytes s))

/-- Read back; a field that is missing is empty. -/
def readString : Option Value → Option String
  | none => some ""
  | some (.len bytes) => fromUtf8 bytes
  | some _ => none

/-- A `bytes` field. -/
def bytes (b : Bytes) : Option Value := if b = [] then none else some (.len b)

/-- Read back; a field that is missing is empty. -/
def readBytes : Option Value → Option Bytes
  | none => some []
  | some (.len bytes) => some bytes
  | some _ => none

/-- An `optional string` field. -/
def optionalString (s : Option String) : Option Value := s.map fun s => .len (asBytes s)

/-- Read back; a field that is missing is none. -/
def readOptionalString : Option Value → Option (Option String)
  | none => some none
  | some (.len bytes) => (fromUtf8 bytes).map some
  | some _ => none

/-- A `uint32` field. -/
def uint32 (n : UInt32) : Option Value := if n = 0 then none else some (.varint n.toNat)

/-- Read back, without the bits above the lowest 32. -/
def readUInt32 : Option Value → Option UInt32
  | none => some 0
  | some (.varint n) => some (UInt32.ofNat n)
  | some _ => none

/-- An `int64` field; negative numbers are written in 64 bits. -/
def int64 (n : Int64) : Option Value := if n = 0 then none else some (.varint n.toUInt64.toNat)

/-- Read back, without the bits above the lowest 64. -/
def readInt64 : Option Value → Option Int64
  | none => some 0
  | some (.varint n) => some (UInt64.ofNat n).toInt64
  | some _ => none

/-- A field with a message. -/
def message {α : Type} (codec : Message α) (m : Option α) : Option Value :=
  m.map fun m => .len (codec.encodeToVec m)

/-- Read back; a field that is missing is no message. -/
def readMessage {α : Type} (codec : Message α) : Option Value → Option (Option α)
  | none => some none
  | some (.len bytes) => (codec.decode bytes).map some
  | some _ => none

@[simp]
theorem readString_string (s : String) : readString (string s) = some s := by
  unfold string
  split_ifs with h
  · rw [h]
    rfl
  · exact fromUtf8_asBytes s

@[simp]
theorem readBytes_bytes (b : Bytes) : readBytes (bytes b) = some b := by
  unfold bytes
  split_ifs with h
  · rw [h]
    rfl
  · rfl

@[simp]
theorem readOptionalString_optionalString (s : Option String) :
    readOptionalString (optionalString s) = some s := by
  cases s <;> simp [optionalString, readOptionalString]

@[simp]
theorem readUInt32_uint32 (n : UInt32) : readUInt32 (uint32 n) = some n := by
  unfold uint32
  split_ifs with h
  · rw [h]
    rfl
  · simp [readUInt32]

@[simp]
theorem readInt64_int64 (n : Int64) : readInt64 (int64 n) = some n := by
  unfold int64
  split_ifs with h
  · rw [h]
    rfl
  · simp [readInt64]

@[simp]
theorem readMessage_message {α : Type} (codec : Message α) (m : Option α) :
    readMessage codec (message codec m) = some m := by
  cases m with
  | none => rfl
  | some m => simp [message, readMessage, codec.decode_encodeToVec]

end Wire

/-- A message type, from the fields of a message and back. -/
@[reducible]
def Message.ofFields {α : Type} (toFields : α → List Field) (ofFields : List Field → Option α)
    (h : ∀ m, ofFields (toFields m) = some m) : Message α where
  encodeToVec m := encode (toFields m)
  decode bytes := (Protobuf.decode bytes).bind ofFields
  decode_encodeToVec m := by rw [decode_encode, Option.bind_some, h]

/-! ### The messages -/

/-- `google.protobuf.Timestamp`. -/
@[reducible]
def timestampCodec : Message Timestamp :=
  .ofFields
    (fun ts => optional 1 (Wire.int64 ts.seconds) ++ optional 2 (Wire.int64 ts.nanos.toInt64))
    (fun fields => do
      let seconds ← Wire.readInt64 (field fields 1)
      let nanos ← Wire.readInt64 (field fields 2)
      return { seconds, nanos := nanos.toInt32 })
    (fun ts => by simp)

/-- `sepp.v1.Payload`. -/
@[reducible]
def payloadCodec : Message Payload :=
  .ofFields
    (fun p => optional 1 (Wire.bytes p.data) ++ optional 2 (Wire.string p.encoding))
    (fun fields => do
      let data ← Wire.readBytes (field fields 1)
      let encoding ← Wire.readString (field fields 2)
      return { data, encoding })
    (fun p => by simp)

/-- `sepp.v1.TraceContext`. -/
@[reducible]
def traceContextCodec : Message TraceContext :=
  .ofFields
    (fun t => optional 1 (Wire.string t.traceparent) ++
      optional 2 (Wire.optionalString t.tracestate))
    (fun fields => do
      let traceparent ← Wire.readString (field fields 1)
      let tracestate ← Wire.readOptionalString (field fields 2)
      return { traceparent, tracestate })
    (fun t => by simp)

/-- `sepp.storage.v1.AuditRecord`. -/
@[reducible]
def auditRecordCodec : Message AuditRecord :=
  .ofFields
    (fun r => optional 1 (Wire.string r.actor) ++ optional 2 (Wire.string r.role) ++
      optional 3 (Wire.string r.action) ++ optional 4 (Wire.string r.detailsJson))
    (fun fields => do
      let actor ← Wire.readString (field fields 1)
      let role ← Wire.readString (field fields 2)
      let action ← Wire.readString (field fields 3)
      let detailsJson ← Wire.readString (field fields 4)
      return { actor, role, action, detailsJson })
    (fun r => by simp)

/-- The `oneof` of a primitive value: at most one field. -/
@[reducible]
def primitiveValueCodec : Message PrimitiveValue :=
  .ofFields
    (fun v =>
      match v.value with
      | none => []
      | some (.stringValue s) => [⟨1, .len (asBytes s)⟩]
      | some (.doubleValue bits) => [⟨2, .fixed64 bits⟩]
      | some (.intValue i) => [⟨3, .varint i.toUInt64.toNat⟩]
      | some (.boolValue b) => [⟨4, .varint b.toNat⟩])
    (fun fields =>
      match fields with
      | [] => some ⟨none⟩
      | ⟨1, .len bytes⟩ :: _ => (fromUtf8 bytes).map fun s => ⟨some (.stringValue s)⟩
      | ⟨2, .fixed64 bits⟩ :: _ => some ⟨some (.doubleValue bits)⟩
      | ⟨3, .varint n⟩ :: _ => some ⟨some (.intValue (UInt64.ofNat n).toInt64)⟩
      | ⟨4, .varint n⟩ :: _ => some ⟨some (.boolValue (n != 0))⟩
      | _ => none)
    (fun v => by
      obtain ⟨_ | s | bits | i | b⟩ := v
      · rfl
      · simp
      · simp
      · simp
      · cases b <;> rfl)

/-- An entry of the map of custom values. -/
@[reducible]
def customEntryCodec : Message (String × PrimitiveValue) :=
  .ofFields
    (fun e => optional 1 (Wire.string e.1) ++
      optional 2 (Wire.message primitiveValueCodec (if e.2 = ⟨none⟩ then none else some e.2)))
    (fun fields => do
      let key ← Wire.readString (field fields 1)
      let value ← Wire.readMessage primitiveValueCodec (field fields 2)
      return (key, value.getD ⟨none⟩))
    (fun e => by
      by_cases h : e.2 = ⟨none⟩
      · simp [h, Prod.ext_iff]
      · simp [h])

namespace Wire

/-- A map field: one message for each entry. -/
def custom (entries : List (String × PrimitiveValue)) : List Value :=
  entries.map fun e => .len (customEntryCodec.encodeToVec e)

/-- An entry of a map field, read back. -/
def readCustomEntry : Value → Option (String × PrimitiveValue)
  | .len bytes => customEntryCodec.decode bytes
  | _ => none

@[simp]
theorem readCustom_custom (entries : List (String × PrimitiveValue)) :
    (custom entries).mapM readCustomEntry = some entries := by
  induction entries with
  | nil => rfl
  | cons e entries ih =>
    have he : readCustomEntry (.len (customEntryCodec.encodeToVec e)) = some e :=
      customEntryCodec.decode_encodeToVec e
    rw [custom, List.map_cons, List.mapM_cons, he, ← custom, ih]
    rfl

end Wire

/-- `sepp.v1.Job`. -/
@[reducible]
def jobCodec : Message Job :=
  .ofFields
    (fun j => optional 1 (Wire.string j.id) ++ optional 2 (Wire.string j.jobType) ++
      optional 3 (Wire.message payloadCodec j.payload) ++ optional 4 (Wire.uint32 j.priority) ++
      optional 5 (Wire.message traceContextCodec j.traceContext) ++
      optional 6 (Wire.message timestampCodec j.enqueuedAt) ++
      optional 7 (Wire.uint32 j.attempt) ++ optional 8 (Wire.uint32 j.maxAttempts) ++
      optional 9 (Wire.message timestampCodec j.leaseExpiresAt) ++
      repeated 10 (Wire.custom j.custom) ++
      optional 11 (Wire.message timestampCodec j.scheduledAt) ++ optional 12 (Wire.string j.queue))
    (fun fields => do
      let id ← Wire.readString (field fields 1)
      let jobType ← Wire.readString (field fields 2)
      let payload ← Wire.readMessage payloadCodec (field fields 3)
      let priority ← Wire.readUInt32 (field fields 4)
      let traceContext ← Wire.readMessage traceContextCodec (field fields 5)
      let enqueuedAt ← Wire.readMessage timestampCodec (field fields 6)
      let attempt ← Wire.readUInt32 (field fields 7)
      let maxAttempts ← Wire.readUInt32 (field fields 8)
      let leaseExpiresAt ← Wire.readMessage timestampCodec (field fields 9)
      let custom ← (fieldsAt fields 10).mapM Wire.readCustomEntry
      let scheduledAt ← Wire.readMessage timestampCodec (field fields 11)
      let queue ← Wire.readString (field fields 12)
      return { id, jobType, payload, priority, traceContext, enqueuedAt, attempt, maxAttempts,
               leaseExpiresAt, custom, scheduledAt, queue })
    (fun j => by simp)

namespace Wire

/-- The numbers of the enumeration of causes. -/
def cause : DeadLetterCause → UInt32
  | .unspecified => 0
  | .attemptsExhausted => 1
  | .rejected => 2
  | .leaseExpired => 3
  | .admin => 4

/-- A number that is no cause is read as the unspecified one. -/
def readCause (n : UInt32) : DeadLetterCause :=
  if n = 1 then .attemptsExhausted
  else if n = 2 then .rejected
  else if n = 3 then .leaseExpired
  else if n = 4 then .admin
  else .unspecified

@[simp]
theorem readCause_cause (c : DeadLetterCause) : readCause (cause c) = c := by
  cases c <;> rfl

end Wire

/-- `sepp.v1.DeadLetterRecord`. -/
@[reducible]
def deadLetterRecordCodec : Message DeadLetterRecord :=
  .ofFields
    (fun r => optional 1 (Wire.message jobCodec r.job) ++
      optional 2 (Wire.uint32 (Wire.cause r.cause)) ++
      optional 3 (Wire.message timestampCodec r.failedAt) ++
      optional 4 (Wire.uint32 r.finalAttempt) ++ optional 5 (Wire.optionalString r.lastReason))
    (fun fields => do
      let job ← Wire.readMessage jobCodec (field fields 1)
      let cause ← Wire.readUInt32 (field fields 2)
      let failedAt ← Wire.readMessage timestampCodec (field fields 3)
      let finalAttempt ← Wire.readUInt32 (field fields 4)
      let lastReason ← Wire.readOptionalString (field fields 5)
      return { job, cause := Wire.readCause cause, failedAt, finalAttempt, lastReason })
    (fun r => by simp)

/-! ### The instance -/

/-- `Timestamp::normalize`: seconds are carried out of the nanoseconds, which end up between zero
and one second; a timestamp out of range becomes the nearest one. -/
def normalizeTimestamp (ts : Timestamp) : Timestamp :=
  if 0 ≤ ts.nanos.toInt ∧ ts.nanos.toInt < 1000000000 then ts
  else
    let seconds := ts.seconds.toInt + ts.nanos.toInt / 1000000000
    if seconds < Int64.minValue.toInt then { seconds := Int64.minValue, nanos := 0 }
    else if Int64.maxValue.toInt < seconds then
      { seconds := Int64.maxValue, nanos := 999999999 }
    else { seconds := Int64.ofInt seconds, nanos := Int32.ofInt (ts.nanos.toInt % 1000000000) }

namespace WireFormat

/-- The messages in the wire format. -/
scoped instance wireProst : Prost where
  job := jobCodec
  payload := payloadCodec
  traceContext := traceContextCodec
  deadLetterRecord := deadLetterRecordCodec
  auditRecord := auditRecordCodec
  normalized := normalizeTimestamp
  normalized_of_canonical _ hnonneg hlt := if_pos ⟨hnonneg, hlt⟩

end WireFormat

end Sepp
