import Sepp.Api.Validate
import Sepp.Config.Registry
import Sepp.Wire.Codec

/-!
# Admission of a job

`check_enqueue_limits` and `classify_enqueue` of `src/queue_server.rs`: which jobs a producer may
enqueue. A job is refused with the first rule that it breaks. The clock, which the source reads in
the last check, is a parameter.

The horizon of a scheduled job is a `u64` that the source casts to `i64` before it adds it to the
clock. From `2^63` on the cast wraps around, and the bound is far in the past.

## Main definitions

* `checkEnqueueLimits`, `classifyEnqueue` — the checks of the source.
* `EnqueueRequest.Admitted`, `EnqueueRequest.WithinHorizon` — the rules, in unbounded integers.
* `HorizonKept` — when the check of the horizon agrees with its rule.

## Main results

* `classifyEnqueue_exact_iff` — admission is exact as long as the horizon is kept.
* `classifyEnqueue_wrapped_horizon` — a job that is refused by a horizon of `2^63`.
-/

open Std

namespace Sepp

/-- `ServerLimits`, the limits that are the same for every queue. -/
structure ServerLimits where
  maxReserveBatch : UInt32
  maxReserveQueues : UInt32
  maxWaitTimeoutMs : UInt64
  maxEnqueueBatch : UInt32
  maxQueueNameBytes : UInt32
  maxJobTypeBytes : UInt32
  maxIdempotencyKeyBytes : UInt32
deriving DecidableEq, Repr

/-- `ServerLimits::from_config`. -/
def ServerLimits.fromConfig (cfg : Config) : ServerLimits where
  maxReserveBatch := cfg.limits.maxReserveBatch
  maxReserveQueues := cfg.limits.maxReserveQueues
  maxWaitTimeoutMs := cfg.limits.maxWaitTimeoutMs
  maxEnqueueBatch := cfg.limits.maxEnqueueBatch
  maxQueueNameBytes := cfg.limits.maxQueueNameBytes
  maxJobTypeBytes := cfg.limits.maxJobTypeBytes
  maxIdempotencyKeyBytes := cfg.limits.maxIdempotencyKeyBytes

/-- The `oneof` of `JobRejection`, restricted to the reasons that `classify_enqueue` gives. -/
inductive ClassifyRejection where
  | invalidRequest (message : String)
  | unknownQueue (queue : String)
  | queueNameTooLong (limit : UInt32) (actual : UInt64)
  | jobTypeNameTooLong (limit : UInt32) (actual : UInt64)
  | jobTypeNotAllowed (jobType : String) (allowed : List String)
  | idempotencyKeyTooLong (limit : UInt32) (actual : UInt64)
  | payloadTooLarge (limit actual : UInt64)
  | encodingNotAllowed (encoding : String) (allowed : List String)
  | customEntriesTooMany (limit actual : UInt32)
  | customKeyTooLong (key : String) (limit : UInt32) (actual : UInt64)
  | customMapTooLarge (limit actual : UInt64)
  | scheduledTooFar (horizon : Duration) (actual : Timestamp)
deriving DecidableEq, Repr

/-! ### The checks -/

/-- `str::len`. -/
def byteLen (s : String) : ℕ := (asBytes s).length

/-- `primitive_value_bytes`. -/
def primitiveValueBytes (v : PrimitiveValue) : ℕ :=
  match v.value with
  | some (.stringValue s) => byteLen s
  | some (.doubleValue _) | some (.intValue _) => 8
  | some (.boolValue _) => 1
  | none => 0

/-- `millis_to_duration`. -/
def millisToDuration (ms : UInt64) : Duration where
  seconds := (ms / 1000).toInt64
  nanos := Int32.ofNat ((ms % 1000).toNat * 1000000)

/-- The loop over the custom map, which adds up the bytes. The `u64` of the source does not
overflow: the bytes are all in memory. -/
def customBytes (limits : EffectiveLimits) : List (String × PrimitiveValue) → ℕ →
    Except ClassifyRejection ℕ
  | [], bytes => .ok bytes
  | (key, value) :: entries, bytes =>
    if limits.maxCustomKeyBytes.toNat < byteLen key then
      .error (.customKeyTooLong key limits.maxCustomKeyBytes (UInt64.ofNat (byteLen key)))
    else customBytes limits entries (bytes + (byteLen key + primitiveValueBytes value))

/-- The checks of the custom map. -/
def checkCustom (limits : EffectiveLimits) (custom : List (String × PrimitiveValue)) :
    Except ClassifyRejection Unit := do
  refuseIf (limits.maxCustomEntries.toNat < custom.length)
    (.customEntriesTooMany limits.maxCustomEntries (UInt32.ofNat custom.length))
  let bytes ← customBytes limits custom 0
  refuseIf (limits.maxCustomTotalBytes.toNat < bytes)
    (.customMapTooLarge limits.maxCustomTotalBytes (UInt64.ofNat bytes))

/-- The checks of the payload. -/
def checkPayload (limits : EffectiveLimits) (payload : Payload) : Except ClassifyRejection Unit := do
  refuseIf (limits.maxPayloadBytes.toNat < payload.data.length)
    (.payloadTooLarge limits.maxPayloadBytes (UInt64.ofNat payload.data.length))
  match limits.allowedEncodings with
  | some allowed =>
    refuseIf (!allowed.contains payload.encoding) (.encodingNotAllowed payload.encoding allowed)
  | none => .ok ()

/-- A check of a field that may be unset. -/
def checkIfSet {α : Type} (field : Option α) (check : α → Except ClassifyRejection Unit) :
    Except ClassifyRejection Unit :=
  match field with
  | some value => check value
  | none => .ok ()

section Checks

variable [Prost]

/-- The check of the horizon: the limit is cast with `as i64`. -/
def checkHorizon (limits : EffectiveLimits) (now : Int64) (scheduledAt : Timestamp) :
    Except ClassifyRejection Unit :=
  refuseIf
    (saturatingAdd now limits.maxScheduleHorizonMs.toInt64 < timestampToMillis scheduledAt)
    (.scheduledTooFar (millisToDuration limits.maxScheduleHorizonMs) scheduledAt)

/-- `check_enqueue_limits`. -/
def checkEnqueueLimits (job : EnqueueRequest) (limits : EffectiveLimits) (server : ServerLimits)
    (now : Int64) : Except ClassifyRejection Unit := do
  refuseIf (server.maxQueueNameBytes.toNat < byteLen job.queue)
    (.queueNameTooLong server.maxQueueNameBytes (UInt64.ofNat (byteLen job.queue)))
  refuseIf (server.maxJobTypeBytes.toNat < byteLen job.jobType)
    (.jobTypeNameTooLong server.maxJobTypeBytes (UInt64.ofNat (byteLen job.jobType)))
  checkIfSet limits.allowedJobTypes fun allowed =>
    refuseIf (!allowed.contains job.jobType) (.jobTypeNotAllowed job.jobType allowed)
  checkIfSet job.idempotencyKey fun key =>
    refuseIf (server.maxIdempotencyKeyBytes.toNat < byteLen key)
      (.idempotencyKeyTooLong server.maxIdempotencyKeyBytes (UInt64.ofNat (byteLen key)))
  checkIfSet job.payload (checkPayload limits)
  checkCustom limits job.custom
  checkIfSet job.scheduledAt (checkHorizon limits now)

/-- `classify_enqueue`. -/
def classifyEnqueue (job : EnqueueRequest) (registry : QueueRegistry) (strictQueues : Bool)
    (server : ServerLimits) (now : Int64) : Except ClassifyRejection Unit :=
  match Validate.enqueueRequest job with
  | .error message => .error (.invalidRequest message)
  | .ok () =>
    if strictQueues && !registry.isDeclared job.queue then .error (.unknownQueue job.queue)
    else checkEnqueueLimits job (registry.effective job.queue) server now

end Checks

/-! ### The rules -/

/-- The rules about sizes and names that a queue has for its jobs. -/
structure EnqueueRequest.Fits (job : EnqueueRequest) (limits : EffectiveLimits)
    (server : ServerLimits) : Prop where
  queue : byteLen job.queue ≤ server.maxQueueNameBytes.toNat
  jobType : byteLen job.jobType ≤ server.maxJobTypeBytes.toNat
  allowedJobType : ∀ allowed ∈ limits.allowedJobTypes, job.jobType ∈ allowed
  idempotencyKey : ∀ key ∈ job.idempotencyKey, byteLen key ≤ server.maxIdempotencyKeyBytes.toNat
  payload : ∀ p ∈ job.payload, p.data.length ≤ limits.maxPayloadBytes.toNat
  encoding : ∀ p ∈ job.payload, ∀ allowed ∈ limits.allowedEncodings, p.encoding ∈ allowed
  customEntries : job.custom.length ≤ limits.maxCustomEntries.toNat
  customKeys : ∀ entry ∈ job.custom, byteLen entry.1 ≤ limits.maxCustomKeyBytes.toNat
  customTotal : (job.custom.map fun entry => byteLen entry.1 + primitiveValueBytes entry.2).sum ≤
    limits.maxCustomTotalBytes.toNat

/-- Every rule but the horizon. -/
structure EnqueueRequest.Admitted (job : EnqueueRequest) (cfg : Config) : Prop where
  wellFormed : job.WellFormed
  declared : cfg.strictQueues = true → ∃ q ∈ cfg.queues, q.name = job.queue
  fits : job.Fits ((QueueRegistry.fromConfig cfg).effective job.queue) (.fromConfig cfg)

section Rules

variable [Prost]

/-- A timestamp in milliseconds, in unbounded integers. -/
def Timestamp.exactMillis (ts : Timestamp) : ℤ :=
  (Prost.normalized ts).seconds.toInt * 1000 + (Prost.normalized ts).nanos.toInt.tdiv 1000000

/-- The rule about the horizon, in unbounded integers. -/
def EnqueueRequest.WithinHorizon (job : EnqueueRequest) (limits : EffectiveLimits) (now : Int64) :
    Prop :=
  ∀ at_ ∈ job.scheduledAt, at_.exactMillis ≤ now.toInt + limits.maxScheduleHorizonMs.toNat

/-- The horizon keeps its value as an `i64` and the clock has room for it, or the timestamp is on
the same side of the exact bound and of the one that the arithmetic gives. -/
def HorizonKept (limits : EffectiveLimits) (now : Int64) (scheduledAt : Timestamp) : Prop :=
  let bound := now.toInt + limits.maxScheduleHorizonMs.toNat
  if limits.maxScheduleHorizonMs.toNat < 2 ^ 63 then
    bound < 2 ^ 63 - 1 ∨ scheduledAt.exactMillis ≤ bound
  else
    -- the cast takes `2 ^ 64` off, and seconds before the first `i64` millisecond count as that one
    bound < scheduledAt.exactMillis ∨
      scheduledAt.exactMillis ≤ bound - 2 ^ 64 ∧
        (-2 ^ 63 ≤ (Prost.normalized scheduledAt).seconds.toInt * 1000 ∨
          (Prost.normalized scheduledAt).nanos.toInt.tdiv 1000000 ≤ bound - 2 ^ 63)

/-! ### The checks decide the rules -/

omit [Prost] in
theorem checkIfSet_ok_iff {α : Type} {field : Option α}
    {check : α → Except ClassifyRejection Unit} :
    checkIfSet field check = .ok () ↔ ∀ value ∈ field, check value = .ok () := by
  cases field <;> simp [checkIfSet]

omit [Prost] in
/-- The loop over the custom map. -/
theorem customBytes_eq_ok_iff (limits : EffectiveLimits)
    (entries : List (String × PrimitiveValue)) (bytes total : ℕ) :
    customBytes limits entries bytes = .ok total ↔
      (∀ entry ∈ entries, byteLen entry.1 ≤ limits.maxCustomKeyBytes.toNat) ∧
        total = bytes +
          (entries.map fun entry => byteLen entry.1 + primitiveValueBytes entry.2).sum := by
  induction entries generalizing bytes with
  | nil => simp [customBytes, eq_comm]
  | cons entry entries ih =>
    rw [customBytes, List.forall_mem_cons, List.map_cons, List.sum_cons]
    split_ifs with hlong
    · exact iff_of_false (by simp) fun h => absurd h.1.1 (by omega)
    · rw [ih]
      constructor
      · rintro ⟨hkeys, rfl⟩
        exact ⟨⟨by omega, hkeys⟩, by omega⟩
      · rintro ⟨⟨-, hkeys⟩, rfl⟩
        exact ⟨hkeys, by omega⟩

omit [Prost] in
theorem checkCustom_ok_iff {limits : EffectiveLimits} {custom : List (String × PrimitiveValue)} :
    checkCustom limits custom = .ok () ↔
      custom.length ≤ limits.maxCustomEntries.toNat ∧
      (∀ entry ∈ custom, byteLen entry.1 ≤ limits.maxCustomKeyBytes.toNat) ∧
      (custom.map fun entry => byteLen entry.1 + primitiveValueBytes entry.2).sum ≤
        limits.maxCustomTotalBytes.toNat := by
  rw [checkCustom, except_bind_eq_ok_iff, refuseIf_ok_iff, decide_eq_false_iff_not, Nat.not_lt]
  refine and_congr_right fun _ => ?_
  have hloop := customBytes_eq_ok_iff limits custom 0
  cases hbytes : customBytes limits custom 0 with
  | error e =>
    refine iff_of_false (fun h => by cases h) fun ⟨hkeys, _⟩ => ?_
    cases hbytes.symm.trans ((hloop _).mpr ⟨hkeys, rfl⟩)
  | ok total =>
    obtain ⟨hkeys, htotal⟩ := (hloop total).mp hbytes
    rw [Nat.zero_add] at htotal
    subst htotal
    exact refuseIf_ok_iff.trans
      ((decide_eq_false_iff_not.trans Nat.not_lt).trans ⟨fun h => ⟨hkeys, h⟩, fun h => h.2⟩)

omit [Prost] in
theorem checkPayload_ok_iff {limits : EffectiveLimits} {payload : Payload} :
    checkPayload limits payload = .ok () ↔
      payload.data.length ≤ limits.maxPayloadBytes.toNat ∧
        ∀ allowed ∈ limits.allowedEncodings, payload.encoding ∈ allowed := by
  rw [checkPayload, except_bind_eq_ok_iff, refuseIf_ok_iff, decide_eq_false_iff_not, Nat.not_lt]
  refine and_congr_right fun _ => ?_
  cases limits.allowedEncodings <;> simp [refuseIf_ok_iff]

/-- The limits hold when each check passes. -/
theorem checkEnqueueLimits_ok_iff {job : EnqueueRequest} {limits : EffectiveLimits}
    {server : ServerLimits} {now : Int64} :
    checkEnqueueLimits job limits server now = .ok () ↔
      job.Fits limits server ∧ ∀ at_ ∈ job.scheduledAt, checkHorizon limits now at_ = .ok () := by
  simp only [checkEnqueueLimits, except_bind_eq_ok_iff, refuseIf_ok_iff, decide_eq_false_iff_not,
    Nat.not_lt, checkIfSet_ok_iff, Bool.not_eq_false', List.contains_iff_mem, checkPayload_ok_iff,
    checkCustom_ok_iff]
  constructor
  · rintro ⟨h1, h2, h3, h4, h5, ⟨h6, h7, h8⟩, h9⟩
    exact ⟨⟨h1, h2, h3, h4, fun p hp => (h5 p hp).1, fun p hp => (h5 p hp).2, h6, h7, h8⟩, h9⟩
  · rintro ⟨⟨h1, h2, h3, h4, h5, h5', h6, h7, h8⟩, h9⟩
    exact ⟨h1, h2, h3, h4, fun p hp => ⟨h5 p hp, h5' p hp⟩, ⟨h6, h7, h8⟩, h9⟩

/-- What `classify_enqueue` accepts. -/
theorem classifyEnqueue_ok_iff {job : EnqueueRequest} {cfg : Config} {now : Int64} :
    classifyEnqueue job (.fromConfig cfg) cfg.strictQueues (.fromConfig cfg) now = .ok () ↔
      job.Admitted cfg ∧ ∀ at_ ∈ job.scheduledAt,
        checkHorizon ((QueueRegistry.fromConfig cfg).effective job.queue) now at_ = .ok () := by
  rw [classifyEnqueue]
  cases hvalid : Validate.enqueueRequest job with
  | error message =>
    refine iff_of_false (by simp) fun h => ?_
    cases hvalid.symm.trans (Validate.enqueueRequest_ok_iff.mpr h.1.wellFormed)
  | ok u =>
    have hwf := Validate.enqueueRequest_ok_iff.mp hvalid
    have hdeclared := QueueRegistry.isDeclared_iff cfg job.queue
    simp only
    split_ifs with hstrict
    · rw [Bool.and_eq_true, Bool.not_eq_true'] at hstrict
      refine iff_of_false (by simp) fun h => ?_
      cases (hdeclared.mpr (h.1.declared hstrict.1)).symm.trans hstrict.2
    · rw [checkEnqueueLimits_ok_iff]
      constructor
      · rintro ⟨hfits, hhorizon⟩
        refine ⟨⟨hwf, fun hs => hdeclared.mp ?_, hfits⟩, hhorizon⟩
        simpa [hs] using hstrict
      · rintro ⟨hadm, hhorizon⟩
        exact ⟨hadm.fits, hhorizon⟩

/-! ### The horizon -/

omit [Prost] in
/-- `as i64` wraps around from `2^63` on. -/
theorem toInt_toInt64 (x : UInt64) :
    x.toInt64.toInt = if x.toNat < 2 ^ 63 then (x.toNat : ℤ) else x.toNat - 2 ^ 64 := by
  have hbits : x.toInt64.toInt = x.toBitVec.toInt := rfl
  rw [hbits, BitVec.toInt_eq_toNat_cond, UInt64.toNat_toBitVec]
  split_ifs with htwice hsmall hsmall <;> omega

/-- The clock of a timestamp, from its two fields. -/
theorem toInt_timestampToMillis {ts : Timestamp}
    (hnanos : 0 ≤ (Prost.normalized ts).nanos.toInt) :
    (timestampToMillis ts).toInt = max (-2 ^ 63) (min
      (max (-2 ^ 63) (min ((Prost.normalized ts).seconds.toInt * 1000) (2 ^ 63 - 1)) +
        (Prost.normalized ts).nanos.toInt.tdiv 1000000) (2 ^ 63 - 1)) := by
  have hlt := (Prost.normalized ts).nanos.toInt_lt
  have hdiv : (Prost.normalized ts).nanos.toInt.tdiv 1000000 =
      (Prost.normalized ts).nanos.toInt / 1000000 := Int.tdiv_eq_ediv_of_nonneg hnanos
  have hfits : (Int64.ofInt ((Prost.normalized ts).nanos.toInt.tdiv 1000000)).toInt =
      (Prost.normalized ts).nanos.toInt.tdiv 1000000 := by
    rw [hdiv]
    apply Int64.toInt_ofInt_of_le <;> omega
  rw [timestampToMillis]
  simp only [toInt_saturatingAdd, saturatingMul, toInt_saturate, hfits]
  rfl

/-- The check of the horizon agrees with its rule exactly when the horizon is kept. -/
theorem checkHorizon_exact_iff {limits : EffectiveLimits} {now : Int64} {at_ : Timestamp}
    (hnow : 0 ≤ now.toInt) (hnanos : 0 ≤ (Prost.normalized at_).nanos.toInt) :
    (checkHorizon limits now at_ = .ok () ↔
      at_.exactMillis ≤ now.toInt + limits.maxScheduleHorizonMs.toNat) ↔
    HorizonKept limits now at_ := by
  have hnowlt := now.toInt_lt
  have hhorizon := limits.maxScheduleHorizonMs.toNat_lt
  have hmillis := toInt_timestampToMillis hnanos
  have hlt := (Prost.normalized at_).nanos.toInt_lt
  have hdiv : (Prost.normalized at_).nanos.toInt.tdiv 1000000 =
      (Prost.normalized at_).nanos.toInt / 1000000 := Int.tdiv_eq_ediv_of_nonneg hnanos
  rw [checkHorizon, refuseIf_ok_iff, decide_eq_false_iff_not, Int64.lt_iff_toInt_lt,
    toInt_saturatingAdd, toInt_toInt64, HorizonKept, Timestamp.exactMillis, hmillis, hdiv]
  split_ifs with hsmall
  · omega
  · omega

/-- Admission is exact as long as the horizon is kept, or another rule is broken anyway. -/
theorem classifyEnqueue_exact_iff {job : EnqueueRequest} {cfg : Config} {now : Int64}
    (hnow : 0 ≤ now.toInt)
    (hnanos : ∀ at_ ∈ job.scheduledAt, 0 ≤ (Prost.normalized at_).nanos.toInt) :
    (classifyEnqueue job (.fromConfig cfg) cfg.strictQueues (.fromConfig cfg) now = .ok () ↔
      job.Admitted cfg ∧
        job.WithinHorizon ((QueueRegistry.fromConfig cfg).effective job.queue) now) ↔
    (job.Admitted cfg → ∀ at_ ∈ job.scheduledAt,
      HorizonKept ((QueueRegistry.fromConfig cfg).effective job.queue) now at_) := by
  rw [classifyEnqueue_ok_iff, EnqueueRequest.WithinHorizon, and_congr_right_iff]
  refine imp_congr_right fun _ => ?_
  cases hscheduled : job.scheduledAt with
  | none => simp
  | some at_ =>
    have hexact : (checkHorizon ((QueueRegistry.fromConfig cfg).effective job.queue) now at_ =
        .ok () ↔ _) ↔ _ := checkHorizon_exact_iff hnow (hnanos at_ hscheduled)
    simpa using hexact

end Rules

/-- A configuration whose horizon is `2^63` milliseconds. -/
def endlessHorizon : Config := { limits := { maxScheduleHorizonMs := 9223372036854775808 } }

/-- A job for the next millisecond. -/
def soonJob : EnqueueRequest where
  queue := "mail"
  jobType := "send"
  scheduledAt := some { seconds := 1, nanos := 1000000 }

theorem soonJob_admitted : soonJob.Admitted endlessHorizon where
  wellFormed := Validate.enqueueRequest_ok_iff.mp (by decide)
  declared h := by cases h
  fits :=
    { queue := by decide
      jobType := by decide
      allowedJobType := fun _ h => by cases h
      idempotencyKey := fun _ h => by cases h
      payload := fun _ h => by cases h
      encoding := fun _ h => by cases h
      customEntries := by decide
      customKeys := fun _ h => by cases h
      customTotal := by decide }

open WireFormat in
/-- The job is refused, although it keeps every rule. -/
theorem classifyEnqueue_wrapped_horizon :
    endlessHorizon.validate = .ok () ∧
    ¬ (classifyEnqueue soonJob (.fromConfig endlessHorizon) endlessHorizon.strictQueues
        (.fromConfig endlessHorizon) 1000 = .ok () ↔
      soonJob.Admitted endlessHorizon ∧
        soonJob.WithinHorizon ((QueueRegistry.fromConfig endlessHorizon).effective soonJob.queue)
          1000) := by
  have hrefused : classifyEnqueue soonJob (.fromConfig endlessHorizon) endlessHorizon.strictQueues
      (.fromConfig endlessHorizon) 1000 =
        .error (.scheduledTooFar { seconds := 9223372036854775, nanos := 808000000 }
          { seconds := 1, nanos := 1000000 }) := by
    decide
  refine ⟨by decide, fun hiff => ?_⟩
  have hwithin : soonJob.WithinHorizon
      ((QueueRegistry.fromConfig endlessHorizon).effective soonJob.queue) 1000 := by
    rintro at_ ⟨⟩
    decide
  cases hrefused.symm.trans (hiff.mpr ⟨soonJob_admitted, hwithin⟩)

open WireFormat in
/-- With the default horizon the job is admitted. -/
theorem classifyEnqueue_exact_iff_soonJob :
    classifyEnqueue soonJob (.fromConfig {}) false (.fromConfig {}) 1000 = .ok () ∧
    (classifyEnqueue soonJob (.fromConfig {}) false (.fromConfig {}) 1000 = .ok () ↔
      soonJob.Admitted {} ∧
        soonJob.WithinHorizon ((QueueRegistry.fromConfig {}).effective soonJob.queue) 1000) := by
  refine ⟨by decide, ?_⟩
  refine (classifyEnqueue_exact_iff (by decide) ?_).mpr fun _ => ?_
  · rintro at_ ⟨⟩
    decide
  · rintro at_ ⟨⟩
    exact .inl (by decide)

end Sepp
