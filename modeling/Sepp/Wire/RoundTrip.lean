import Sepp.Wire.Codec
import Sepp.Wire.Keys

/-!
# Round trips of the storage codecs

Every key and value is read back as it was written, through each of its accessors, and distinct
keys have distinct encodings. A ready key is also read back to the bytes it came from: what the
decoder accepts is what the encoder writes, but for a priority byte above nine.

## Main definitions

* `ReadyKey.priorityByte` — the byte of a ready key that holds its priority.
* `CodecsRoundTrip` — the round trips, one field for each codec.

## Main results

* `storage_codecs_roundtrip`.
-/

namespace Sepp

/-! ### What a reader accepts -/

namespace KeyReader

theorem take_eq_some {n : ℕ} {bytes x rest : Bytes} (h : take n bytes = some (x, rest)) :
    x.length = n ∧ bytes = x ++ rest := by
  rw [take] at h
  split_ifs at h with hlen
  obtain ⟨rfl, rfl⟩ := Prod.mk.inj (Option.some.inj h)
  exact ⟨List.length_take_of_le hlen, (List.take_append_drop n bytes).symm⟩

theorem bind_eq_some {α β : Type} {r : KeyReader α} {f : α → KeyReader β} {bytes rest : Bytes}
    {b : β} (h : (r >>= f) bytes = some (b, rest)) :
    ∃ a mid, r bytes = some (a, mid) ∧ f a mid = some (b, rest) := by
  rw [bind_apply, Option.bind_eq_some_iff] at h
  obtain ⟨⟨a, mid⟩, hr, hf⟩ := h
  exact ⟨a, mid, hr, hf⟩

theorem u8_eq_some {bytes rest : Bytes} {b : UInt8} (h : u8 bytes = some (b, rest)) :
    bytes = b :: rest := by
  obtain ⟨x, mid, hx, hpure⟩ := bind_eq_some h
  obtain ⟨rfl, rfl⟩ := Prod.mk.inj (Option.some.inj hpure)
  obtain ⟨hlen, rfl⟩ := take_eq_some hx
  obtain ⟨b, rfl⟩ := List.length_eq_one_iff.mp hlen
  simp [BigEndian.ofBytes]

theorem i64_eq_some {bytes rest : Bytes} {v : Int64} (h : i64 bytes = some (v, rest)) :
    bytes = KeyWriter.i64 v ++ rest := by
  obtain ⟨x, mid, hx, hpure⟩ := bind_eq_some h
  obtain ⟨rfl, rfl⟩ := Prod.mk.inj (Option.some.inj hpure)
  obtain ⟨hlen, rfl⟩ := take_eq_some hx
  have hlt := BigEndian.ofBytes_lt x
  rw [hlen] at hlt
  have hback := BigEndian.toBytes_ofBytes x
  rw [hlen] at hback
  rw [KeyWriter.i64, UInt64.toUInt64_toInt64, UInt64.toNat_ofNat_of_lt' hlt, hback]

theorem prefixedStr_eq_some {bytes rest : Bytes} {queue : String}
    (h : prefixedStr bytes = some (queue, rest)) :
    FitsPrefix queue ∧ bytes = queuePrefix queue ++ rest := by
  obtain ⟨x, mid, hx, hlift⟩ := bind_eq_some h
  obtain ⟨n, mid', hn, htake⟩ := bind_eq_some hx
  obtain ⟨hnlen, rfl⟩ := take_eq_some hn
  obtain ⟨hxlen, rfl⟩ := take_eq_some htake
  rw [lift_apply, Option.map_eq_some_iff] at hlift
  obtain ⟨queue', hqueue, hpair⟩ := hlift
  obtain ⟨rfl, rfl⟩ := Prod.mk.inj hpair
  obtain rfl := fromUtf8_eq_some_iff.mp hqueue
  have hlt := BigEndian.ofBytes_lt n
  rw [hnlen] at hlt
  have hback := BigEndian.toBytes_ofBytes n
  rw [hnlen] at hback
  refine ⟨by rw [FitsPrefix]; omega, ?_⟩
  rw [queuePrefix, KeyWriter.prefixed, hxlen, hback, List.append_assoc]

theorem tailStr_eq_some {bytes rest : Bytes} {s : String} (h : tailStr bytes = some (s, rest)) :
    bytes = asBytes s := by
  obtain ⟨x, mid, hx, hlift⟩ := bind_eq_some h
  obtain ⟨rfl, rfl⟩ := Prod.mk.inj (Option.some.inj hx)
  rw [lift_apply, Option.map_eq_some_iff] at hlift
  obtain ⟨s', hs, hpair⟩ := hlift
  obtain ⟨rfl, -⟩ := Prod.mk.inj hpair
  exact fromUtf8_eq_some_iff.mp hs

end KeyReader

/-! ### Ready keys -/

namespace ReadyKey

/-- The byte that holds the priority, after the queue. -/
def priorityByte (bytes : Bytes) : Option UInt8 :=
  KeyReader.parse (do
    let _ ← KeyReader.prefixedStr
    KeyReader.u8) bytes

theorem clampPriority_of_le {priority : UInt32} (h : priority ≤ 9) :
    clampPriority priority = priority := by
  have hle : priority.toNat ≤ 9 := h
  rw [clampPriority, min_eq_left hle, UInt32.ofNat_toNat]

theorem encode_inj {a b : ReadyKey} (ha : FitsPrefix a.queue) (hb : FitsPrefix b.queue)
    (hpa : a.priority ≤ 9) (hpb : b.priority ≤ 9) (h : a.encode = b.encode) : a = b := by
  have hdecode := congrArg decode h
  rwa [decode_encode ha, decode_encode hb, clampPriority_of_le hpa, clampPriority_of_le hpb,
    Option.some.injEq] at hdecode

/-- What is decoded comes from these bytes. -/
theorem of_decode {bytes : Bytes} {k : ReadyKey} (h : decode bytes = some k) :
    ∃ p : UInt8, priorityByte bytes = some p ∧ k.priority = UInt32.ofNat (9 - p.toNat) ∧
      bytes = queuePrefix k.queue ++ (p :: (KeyWriter.i64 k.enqueuedAt ++ asBytes k.jobId)) := by
  rw [decode, KeyReader.parse, Option.map_eq_some_iff] at h
  obtain ⟨⟨k', rest⟩, hread, rfl⟩ := h
  obtain ⟨queue, b₁, hqueue, hread⟩ := KeyReader.bind_eq_some hread
  obtain ⟨p, b₂, hp, hread⟩ := KeyReader.bind_eq_some hread
  obtain ⟨enqueuedAt, b₃, hat, hread⟩ := KeyReader.bind_eq_some hread
  obtain ⟨jobId, b₄, hid, hpure⟩ := KeyReader.bind_eq_some hread
  obtain ⟨rfl, rfl⟩ := Prod.mk.inj (Option.some.inj hpure)
  have hbyte : priorityByte bytes = some p := by
    rw [priorityByte, KeyReader.parse, KeyReader.bind_apply, hqueue, Option.bind_some]
    change (KeyReader.u8 b₁).map Prod.fst = some p
    rw [hp]
    rfl
  refine ⟨p, hbyte, rfl, ?_⟩
  rw [(KeyReader.prefixedStr_eq_some hqueue).2, KeyReader.u8_eq_some hp, KeyReader.i64_eq_some hat,
    KeyReader.tailStr_eq_some hid]

/-- The priority byte that is written for a priority byte that was read. -/
theorem invertPriority_ofNat_sub (p : UInt8) :
    invertPriority (UInt32.ofNat (9 - p.toNat)) = p ↔ ¬ 9 < p := by
  have hp := p.toNat_lt
  have hlt : 9 - p.toNat < 2 ^ 32 := by omega
  rw [invertPriority, UInt32.toNat_ofNat_of_lt' hlt, ← UInt8.toNat_inj, UInt8.toNat_ofNat',
    UInt8.lt_iff_toNat_lt]
  change _ ↔ ¬ 9 < p.toNat
  omega

/-- Encoding what was decoded gives the bytes back, unless the priority byte exceeds nine. -/
theorem encode_eq_iff_of_decode {bytes : Bytes} {k : ReadyKey} (h : decode bytes = some k) :
    k.encode ≠ bytes ↔ ∃ p, priorityByte bytes = some p ∧ 9 < p := by
  obtain ⟨p, hbyte, hpriority, hbytes⟩ := of_decode h
  have heq : k.encode = bytes ↔ ¬ 9 < p := by
    rw [← invertPriority_ofNat_sub p, ← hpriority, encode]
    nth_rewrite 1 [hbytes]
    rw [List.append_cancel_left_eq, List.cons.injEq]
    exact and_iff_left rfl
  rw [Ne, heq, not_not, hbyte]
  simp

end ReadyKey

/-! ### The other keys and values -/

theorem DedupTimerKey.encode_injective : Function.Injective encode := by
  intro a b h
  have hkey := congrArg dedupKeyOf h
  have hdeadline := congrArg deadlineOf h
  rw [dedupKeyOf_encode, dedupKeyOf_encode, Option.some.injEq] at hkey
  rw [deadlineOf_encode, deadlineOf_encode] at hdeadline
  cases a
  cases b
  simp_all

theorem DedupTimerKey.queueOf_encode {k : DedupKey} (h : FitsPrefix k.queue) (deadline : Int64) :
    queueOf (encode { deadline, dedupKey := k.encode }) = some k.queue := by
  rw [queueOf, dedupKeyOf_encode, Option.bind_some]
  exact readQueue_append _ h

theorem DeadLetterKey.encode_inj {a b : DeadLetterKey} (ha : FitsPrefix a.queue)
    (hb : FitsPrefix b.queue) (h : a.encode = b.encode) : a = b := by
  have hread := congrArg (KeyReader.i64 · ) h
  simp only [encode, KeyReader.i64_append, Option.some.injEq, Prod.mk.injEq] at hread
  obtain ⟨hfailed, hrest⟩ := hread
  have hqueue := congrArg KeyReader.prefixedStr hrest
  rw [KeyReader.prefixedStr_append _ ha, KeyReader.prefixedStr_append _ hb, Option.some.injEq,
    Prod.mk.injEq] at hqueue
  cases a
  cases b
  simp_all

theorem closingKey_injective : Function.Injective closingKey := by
  intro a b h
  have hqueue := congrArg closingQueue h
  rwa [closingQueue_closingKey, closingQueue_closingKey, Option.some.injEq] at hqueue

section Messages

variable [Prost]

/-- Only the default message has no bytes, so a trace context with a `traceparent` has some. -/
theorem Inflight.storedTrace_eq
    (hdefault : Message.encodeToVec (⟨"", none⟩ : TraceContext) = []) {tc : Option TraceContext}
    (h : ∀ ctx, tc = some ctx → ctx.traceparent ≠ "") : storedTrace tc = tc := by
  cases tc with
  | none => rw [storedTrace, if_pos (by rfl)]
  | some ctx =>
    rw [storedTrace, if_neg]
    intro hempty
    rw [List.isEmpty_iff] at hempty
    have hdecode := Message.decode_encodeToVec ctx
    rw [show Message.encodeToVec ctx = [] from hempty, ← hdefault,
      Message.decode_encodeToVec] at hdecode
    obtain rfl := Option.some.inj hdecode
    exact h _ rfl rfl

/-- Every codec of `src/keys.rs` reads back what it wrote. -/
structure CodecsRoundTrip : Prop where
  readyKey : ∀ k : ReadyKey, FitsPrefix k.queue →
    ReadyKey.decode k.encode = some { k with priority := ReadyKey.clampPriority k.priority } ∧
      readQueue k.encode = some k.queue
  readyKey_injective : ∀ a b : ReadyKey, FitsPrefix a.queue → FitsPrefix b.queue →
    a.priority ≤ 9 → b.priority ≤ 9 → a.encode = b.encode → a = b
  readyKey_canonical : ∀ bytes k, ReadyKey.decode bytes = some k →
    (k.encode ≠ bytes ↔ ∃ p, ReadyKey.priorityByte bytes = some p ∧ 9 < p)
  timerKey : ∀ k : TimerKey, TimerKey.jobIdOf k.encode = some (asBytes k.jobId) ∧
    deadlineOf k.encode = k.deadline
  timerKey_injective : Function.Injective TimerKey.encode
  dedupKey : ∀ k : DedupKey, FitsPrefix k.queue → readQueue k.encode = some k.queue
  dedupKey_injective : ∀ a b : DedupKey, FitsPrefix a.queue → FitsPrefix b.queue →
    a.encode = b.encode → a = b
  dedupTimerKey : ∀ k : DedupTimerKey, DedupTimerKey.dedupKeyOf k.encode = some k.dedupKey ∧
    deadlineOf k.encode = k.deadline
  dedupTimerKey_queue : ∀ (deadline : Int64) (k : DedupKey), FitsPrefix k.queue →
    DedupTimerKey.queueOf (DedupTimerKey.encode { deadline, dedupKey := k.encode }) = some k.queue
  dedupTimerKey_injective : Function.Injective DedupTimerKey.encode
  deadLetterKey : ∀ (failedAt : Int64) (queue id : String), FitsPrefix queue →
    DeadLetterKey.queueOf (DeadLetterKey.encode ⟨failedAt, queue, asBytes id⟩) = some queue ∧
      DeadLetterKey.jobIdOf (DeadLetterKey.encode ⟨failedAt, queue, asBytes id⟩) = some id ∧
      deadlineOf (DeadLetterKey.encode ⟨failedAt, queue, asBytes id⟩) = failedAt
  deadLetterKey_injective : ∀ a b : DeadLetterKey, FitsPrefix a.queue → FitsPrefix b.queue →
    a.encode = b.encode → a = b
  closing : ∀ queue, closingQueue (closingKey queue) = some queue
  closing_injective : Function.Injective closingKey
  dedupValue : ∀ v : DedupValue, DedupValue.decode v.encode = some v
  auditValue : ∀ v : AuditValue, AuditValue.decode v.encode = some (v.tsMs, v.record)
  jobValue : ∀ v : JobValue, FitsPrefix v.queue →
    JobValue.decode v.encode = .ok (v.queue, v.job) ∧ readQueue v.encode = some v.queue
  inflight : ∀ v : Inflight, FitsPrefix v.queue →
    (∀ ctx, v.traceContext = some ctx → ctx.traceparent ≠ "") → Inflight.decode v.encode = .ok v

/-- The round trips hold for every prost that writes no bytes for a default message. -/
theorem storage_codecs_roundtrip
    (hdefault : Message.encodeToVec (⟨"", none⟩ : TraceContext) = []) : CodecsRoundTrip where
  readyKey _ h := ⟨ReadyKey.decode_encode h, ReadyKey.readQueue_encode h⟩
  readyKey_injective _ _ := ReadyKey.encode_inj
  readyKey_canonical _ _ := ReadyKey.encode_eq_iff_of_decode
  timerKey k := ⟨TimerKey.jobIdOf_encode k, TimerKey.deadlineOf_encode k⟩
  timerKey_injective := TimerKey.encode_injective
  dedupKey _ h := readQueue_append _ h
  dedupKey_injective _ _ := DedupKey.encode_inj
  dedupTimerKey k := ⟨DedupTimerKey.dedupKeyOf_encode k, DedupTimerKey.deadlineOf_encode k⟩
  dedupTimerKey_queue deadline _ h := DedupTimerKey.queueOf_encode h deadline
  dedupTimerKey_injective := DedupTimerKey.encode_injective
  deadLetterKey failedAt queue id h := by
    refine ⟨DeadLetterKey.queueOf_encode h, ?_, DeadLetterKey.deadlineOf_encode _⟩
    rw [DeadLetterKey.jobIdOf_encode h, fromUtf8_asBytes]
  deadLetterKey_injective _ _ := DeadLetterKey.encode_inj
  closing := closingQueue_closingKey
  closing_injective := closingKey_injective
  dedupValue := DedupValue.decode_encode
  auditValue := AuditValue.decode_encode
  jobValue _ h := ⟨JobValue.decode_encode h, JobValue.readQueue_encode h⟩
  inflight v h htrace := by rw [Inflight.decode_encode h, Inflight.storedTrace_eq hdefault htrace]

end Messages

open WireFormat in
theorem storage_codecs_roundtrip_wire : CodecsRoundTrip := storage_codecs_roundtrip (by decide)

end Sepp
