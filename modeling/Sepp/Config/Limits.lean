import Mathlib.Data.List.Sort
import Sepp.Wire.Bytes

/-!
# Configured limits

`LimitsConfig`, `StorageConfig`, `QueueConfig`, `EffectiveLimits` and `Config` of `src/config.rs`
with their validation. The limits of a queue are the global ones with the overrides of its
`[[queues]]` entry, and a configuration is accepted only if the global limits and those of every
declared queue are in range.

A `#[garde]` report is the list of the fields that break a declared rule. `Config::validate` also
checks the sections on TLS, keys, logging and telemetry; they say nothing about limits and are left
out, with the fields that only they read.

## Main definitions

* `EffectiveLimits.fromGlobals`, `EffectiveLimits.mergedWith` — the limits of a queue.
* `Config.validate`.

## Main results

* `Config.validate_ok_iff` — what a validated configuration promises.
-/

namespace Sepp

/-! ### Sections -/

/-- How the delay of a retry grows from one attempt to the next. -/
inductive RetryBackoff where
  | none
  | exponential
deriving DecidableEq, Repr

/-- One entry of `[[queues]]`: a name and the limits it overrides. -/
structure QueueConfig where
  name : String
  maxLeaseDurationMs : Option UInt64 := none
  defaultMaxAttempts : Option UInt32 := none
  maxAttemptsCeiling : Option UInt32 := none
  defaultPriority : Option UInt32 := none
  retryDelayMs : Option UInt64 := none
  retryBackoff : Option RetryBackoff := none
  retryDelayMaxMs : Option UInt64 := none
  maxPayloadBytes : Option UInt64 := none
  allowedEncodings : Option (List String) := none
  allowedJobTypes : Option (List String) := none
  maxScheduleHorizonMs : Option UInt64 := none
  maxCustomEntries : Option UInt32 := none
  maxCustomTotalBytes : Option UInt64 := none
  maxCustomKeyBytes : Option UInt32 := none
  dedupWindowMs : Option Int64 := none
  maxQueueDepth : Option UInt64 := none
deriving DecidableEq, Repr

/-- The limits of one queue. -/
structure EffectiveLimits where
  maxLeaseDurationMs : UInt64
  defaultMaxAttempts : UInt32
  maxAttemptsCeiling : UInt32
  defaultPriority : UInt32
  retryDelayMs : UInt64
  retryBackoff : RetryBackoff
  retryDelayMaxMs : UInt64
  maxPayloadBytes : UInt64
  allowedEncodings : Option (List String)
  allowedJobTypes : Option (List String)
  maxScheduleHorizonMs : UInt64
  maxCustomEntries : UInt32
  maxCustomTotalBytes : UInt64
  maxCustomKeyBytes : UInt32
  dedupWindowMs : Int64
  maxQueueDepth : Option UInt64
deriving DecidableEq, Repr

/-- `[limits]`, with its defaults. -/
structure LimitsConfig where
  maxLeaseDurationMs : UInt64 := 300000
  defaultMaxAttempts : UInt32 := 3
  maxAttemptsCeiling : UInt32 := 100
  defaultPriority : UInt32 := 0
  retryDelayMs : UInt64 := 0
  retryBackoff : RetryBackoff := .none
  retryDelayMaxMs : UInt64 := 3600000
  maxReserveBatch : UInt32 := 256
  maxReserveQueues : UInt32 := 32
  maxWaitTimeoutMs : UInt64 := 300000
  maxEnqueueBatch : UInt32 := 256
  maxQueueDepth : Option UInt64 := none
  maxPayloadBytes : UInt64 := 1048576
  maxMessageBytes : UInt64 := 16777216
  maxCustomEntries : UInt32 := 64
  maxCustomTotalBytes : UInt64 := 16384
  maxCustomKeyBytes : UInt32 := 256
  maxQueueNameBytes : UInt32 := 512
  maxJobTypeBytes : UInt32 := 256
  maxIdempotencyKeyBytes : UInt32 := 256
  maxScheduleHorizonMs : UInt64 := 2592000000
  -- `none` is unrestricted, an empty list rejects all.
  allowedEncodings : Option (List String) := none
deriving DecidableEq, Repr

/-- `[storage]`, as far as the limits and the sweep read it, with its defaults. -/
structure StorageConfig where
  sweepIntervalMs : UInt64 := 1000
  sweepLimit : UInt64 := 10000
  dedupWindowMs : Int64 := 86400000
  deadLetterRetentionMs : UInt64 := 0
  commandQueueCapacity : UInt64 := 4096
deriving DecidableEq, Repr

/-- `Config`, as far as the limits are concerned. -/
structure Config where
  strictQueues : Bool := false
  limits : LimitsConfig := {}
  storage : StorageConfig := {}
  queues : List QueueConfig := []
deriving DecidableEq, Repr

/-! ### Effective limits -/

namespace EffectiveLimits

/-- `EffectiveLimits::from_globals`. -/
def fromGlobals (limits : LimitsConfig) (storage : StorageConfig) : EffectiveLimits where
  maxLeaseDurationMs := limits.maxLeaseDurationMs
  defaultMaxAttempts := limits.defaultMaxAttempts
  maxAttemptsCeiling := limits.maxAttemptsCeiling
  defaultPriority := limits.defaultPriority
  retryDelayMs := limits.retryDelayMs
  retryBackoff := limits.retryBackoff
  retryDelayMaxMs := limits.retryDelayMaxMs
  maxPayloadBytes := limits.maxPayloadBytes
  allowedEncodings := limits.allowedEncodings
  allowedJobTypes := none
  maxScheduleHorizonMs := limits.maxScheduleHorizonMs
  maxCustomEntries := limits.maxCustomEntries
  maxCustomTotalBytes := limits.maxCustomTotalBytes
  maxCustomKeyBytes := limits.maxCustomKeyBytes
  dedupWindowMs := storage.dedupWindowMs
  maxQueueDepth := limits.maxQueueDepth

/-- `EffectiveLimits::merged_with`. -/
def mergedWith (l : EffectiveLimits) (q : QueueConfig) : EffectiveLimits where
  maxLeaseDurationMs := q.maxLeaseDurationMs.getD l.maxLeaseDurationMs
  defaultMaxAttempts := q.defaultMaxAttempts.getD l.defaultMaxAttempts
  maxAttemptsCeiling := q.maxAttemptsCeiling.getD l.maxAttemptsCeiling
  defaultPriority := q.defaultPriority.getD l.defaultPriority
  retryDelayMs := q.retryDelayMs.getD l.retryDelayMs
  retryBackoff := q.retryBackoff.getD l.retryBackoff
  retryDelayMaxMs := q.retryDelayMaxMs.getD l.retryDelayMaxMs
  maxPayloadBytes := q.maxPayloadBytes.getD l.maxPayloadBytes
  allowedEncodings := q.allowedEncodings.or l.allowedEncodings
  -- there is no global list of job types
  allowedJobTypes := q.allowedJobTypes
  maxScheduleHorizonMs := q.maxScheduleHorizonMs.getD l.maxScheduleHorizonMs
  maxCustomEntries := q.maxCustomEntries.getD l.maxCustomEntries
  maxCustomTotalBytes := q.maxCustomTotalBytes.getD l.maxCustomTotalBytes
  maxCustomKeyBytes := q.maxCustomKeyBytes.getD l.maxCustomKeyBytes
  dedupWindowMs := q.dedupWindowMs.getD l.dedupWindowMs
  maxQueueDepth := q.maxQueueDepth.or l.maxQueueDepth

end EffectiveLimits

/-! ### Validation -/

/-- Why a configuration is refused. -/
inductive ConfigError where
  /-- A garde report: the section and the fields that break a declared rule. -/
  | report (scope : String) (fields : List String)
  /-- A rule across fields, with its message. -/
  | rule (message : String)
  /-- `queues[].name {:?} {why}`. -/
  | queueName (name why : String)
  /-- `queues[].name {:?} exceeds limits.max_queue_name_bytes ({})`. -/
  | queueNameTooLong (name : String) (limit : UInt32)
  /-- `queues[] contains duplicate name {:?}`. -/
  | duplicateName (name : String)
deriving DecidableEq, Repr

/-- `Validate::validate` of garde, from the declared rules by field. The derived code takes the
fields of a section by name. -/
def gardeValidate (scope : String) (rules : List (String × Bool)) : Except ConfigError Unit :=
  match ((rules.filter fun rule => !rule.2).map Prod.fst).insertionSort (· ≤ ·) with
  | [] => .ok ()
  | fields => .error (.report scope fields)

/-- A check of the source that ends with an early return. -/
def refuseIf {ε : Type} (broken : Bool) (e : ε) : Except ε Unit :=
  if broken then .error e else .ok ()

namespace EffectiveLimits

/-- The `#[garde]` attributes of `EffectiveLimits`. -/
def rules (l : EffectiveLimits) (maxMessageBytes : UInt64) : List (String × Bool) :=
  [("max_lease_duration_ms", 1 ≤ l.maxLeaseDurationMs),
    ("default_max_attempts", 1 ≤ l.defaultMaxAttempts),
    ("max_attempts_ceiling", 1 ≤ l.maxAttemptsCeiling),
    ("default_priority", l.defaultPriority ≤ 9),
    ("retry_delay_max_ms", 1 ≤ l.retryDelayMaxMs),
    ("max_payload_bytes", 1 ≤ l.maxPayloadBytes && l.maxPayloadBytes ≤ maxMessageBytes),
    ("allowed_encodings", l.allowedEncodings.all fun es => es.all (· ≠ "")),
    ("allowed_job_types", l.allowedJobTypes.all fun ts => ts ≠ [] && ts.all (· ≠ "")),
    ("max_schedule_horizon_ms", 1 ≤ l.maxScheduleHorizonMs),
    ("max_custom_entries", 1 ≤ l.maxCustomEntries),
    ("max_custom_total_bytes", 1 ≤ l.maxCustomTotalBytes),
    ("max_custom_key_bytes", 1 ≤ l.maxCustomKeyBytes),
    ("dedup_window_ms", 1 ≤ l.dedupWindowMs)]

/-- `EffectiveLimits::validate`. -/
def validate (l : EffectiveLimits) (maxMessageBytes : UInt64) (scope : String) :
    Except ConfigError Unit := do
  gardeValidate scope (l.rules maxMessageBytes)
  refuseIf (l.maxAttemptsCeiling < l.defaultMaxAttempts)
    (.rule (scope ++ ".default_max_attempts: must not exceed max_attempts_ceiling"))
  refuseIf (l.retryDelayMaxMs < l.retryDelayMs)
    (.rule (scope ++ ".retry_delay_ms: must not exceed retry_delay_max_ms"))

end EffectiveLimits

/-- The `#[garde]` attributes of `LimitsConfig`. -/
def LimitsConfig.rules (l : LimitsConfig) : List (String × Bool) :=
  [("max_reserve_batch", 1 ≤ l.maxReserveBatch),
    ("max_reserve_queues", 1 ≤ l.maxReserveQueues),
    ("max_wait_timeout_ms", 1 ≤ l.maxWaitTimeoutMs),
    ("max_enqueue_batch", 1 ≤ l.maxEnqueueBatch),
    ("max_message_bytes", 1 ≤ l.maxMessageBytes),
    ("max_queue_name_bytes", 1 ≤ l.maxQueueNameBytes && l.maxQueueNameBytes ≤ 65535),
    ("max_job_type_bytes", 1 ≤ l.maxJobTypeBytes),
    ("max_idempotency_key_bytes", 1 ≤ l.maxIdempotencyKeyBytes)]

/-- The `#[garde]` attributes of `StorageConfig`. -/
def StorageConfig.rules (s : StorageConfig) : List (String × Bool) :=
  [("sweep_interval_ms", 1 ≤ s.sweepIntervalMs), ("sweep_limit", 1 ≤ s.sweepLimit),
    ("command_queue_capacity", 1 ≤ s.commandQueueCapacity)]

/-- `char::is_control`: the Unicode category `Cc`. -/
def isControl (c : Char) : Bool := c.toNat < 0x20 || (0x7F ≤ c.toNat && c.toNat < 0xA0)

/-- `queue_name_error` of `src/validate.rs`. -/
def queueNameError (name : String) : Option String :=
  if name = "" then some "must not be empty"
  else if name = "." ∨ name = ".." then some "must not be \".\" or \"..\""
  else if name.toList.contains '/' then some "must not contain '/'"
  else if name.toList.any isControl then some "must not contain control characters"
  else none

/-- The check of a declared name. -/
def validateQueueName (name : String) : Except ConfigError Unit :=
  match queueNameError name with
  | some why => .error (.queueName name why)
  | none => .ok ()

/-- The loop of `Config::validate_queues`; `seen` is the set of the names before. -/
def validateQueues (limits : LimitsConfig) (defaults : EffectiveLimits) :
    List String → List QueueConfig → Except ConfigError Unit
  | _, [] => .ok ()
  | seen, q :: queues => do
    validateQueueName q.name
    refuseIf (limits.maxQueueNameBytes.toNat < (asBytes q.name).length)
      (.queueNameTooLong q.name limits.maxQueueNameBytes)
    refuseIf (seen.contains q.name) (.duplicateName q.name)
    (defaults.mergedWith q).validate limits.maxMessageBytes ("queues[" ++ debugStr q.name ++ "]")
    validateQueues limits defaults (q.name :: seen) queues

/-- The global limits. -/
def Config.defaults (cfg : Config) : EffectiveLimits :=
  EffectiveLimits.fromGlobals cfg.limits cfg.storage

/-- `Config::validate`. -/
def Config.validate (cfg : Config) : Except ConfigError Unit := do
  gardeValidate "limits" cfg.limits.rules
  gardeValidate "storage" cfg.storage.rules
  cfg.defaults.validate cfg.limits.maxMessageBytes "limits"
  validateQueues cfg.limits cfg.defaults [] cfg.queues

/-! ### What validation promises -/

/-- The limits are in range. -/
structure EffectiveLimits.Valid (l : EffectiveLimits) (maxMessageBytes : UInt64) : Prop where
  maxLeaseDurationMs : 1 ≤ l.maxLeaseDurationMs
  defaultMaxAttempts : 1 ≤ l.defaultMaxAttempts
  maxAttemptsCeiling : 1 ≤ l.maxAttemptsCeiling
  defaultPriority : l.defaultPriority ≤ 9
  retryDelayMaxMs : 1 ≤ l.retryDelayMaxMs
  maxPayloadBytes : 1 ≤ l.maxPayloadBytes ∧ l.maxPayloadBytes ≤ maxMessageBytes
  allowedEncodings : ∀ es ∈ l.allowedEncodings, ∀ e ∈ es, e ≠ ""
  allowedJobTypes : ∀ ts ∈ l.allowedJobTypes, ts ≠ [] ∧ ∀ t ∈ ts, t ≠ ""
  maxScheduleHorizonMs : 1 ≤ l.maxScheduleHorizonMs
  maxCustomEntries : 1 ≤ l.maxCustomEntries
  maxCustomTotalBytes : 1 ≤ l.maxCustomTotalBytes
  maxCustomKeyBytes : 1 ≤ l.maxCustomKeyBytes
  dedupWindowMs : 1 ≤ l.dedupWindowMs
  attempts_le : l.defaultMaxAttempts ≤ l.maxAttemptsCeiling
  retryDelay_le : l.retryDelayMs ≤ l.retryDelayMaxMs

/-- A declared queue is named and limited as the configuration allows. -/
structure QueueConfig.Valid (q : QueueConfig) (cfg : Config) : Prop where
  name : queueNameError q.name = none
  name_le : (asBytes q.name).length ≤ cfg.limits.maxQueueNameBytes.toNat
  limits : (cfg.defaults.mergedWith q).Valid cfg.limits.maxMessageBytes

/-- The configuration is accepted. -/
structure Config.Valid (cfg : Config) : Prop where
  limits : ∀ rule ∈ cfg.limits.rules, rule.2 = true
  storage : ∀ rule ∈ cfg.storage.rules, rule.2 = true
  defaults : cfg.defaults.Valid cfg.limits.maxMessageBytes
  queues : ∀ q ∈ cfg.queues, q.Valid cfg
  nodup : (cfg.queues.map QueueConfig.name).Nodup

/-- A computation that ends well has gone through all of its steps. -/
theorem except_bind_eq_ok {ε α β : Type} {x : Except ε α} {f : α → Except ε β} {r : β}
    (h : (x >>= f) = .ok r) : ∃ v, x = .ok v ∧ f v = .ok r := by
  cases x with
  | error e => cases h
  | ok v => exact ⟨v, rfl, h⟩

theorem except_bind_eq_ok_iff {ε : Type} {x y : Except ε Unit} :
    (x >>= fun _ => y) = .ok () ↔ x = .ok () ∧ y = .ok () := by
  cases x with
  | error e => simp [bind, Except.bind]
  | ok u => simp [bind, Except.bind]

theorem gardeValidate_ok_iff {scope : String} {rules : List (String × Bool)} :
    gardeValidate scope rules = .ok () ↔ ∀ rule ∈ rules, rule.2 = true := by
  have hnil : ((rules.filter fun rule => !rule.2).map Prod.fst).insertionSort (· ≤ ·) = [] ↔
      ∀ rule ∈ rules, rule.2 = true := by
    rw [← List.length_eq_zero_iff, List.length_insertionSort, List.length_eq_zero_iff]
    simp [List.filter_eq_nil_iff]
  rw [← hnil, gardeValidate]
  cases ((rules.filter fun rule => !rule.2).map Prod.fst).insertionSort (· ≤ ·) <;> simp

theorem refuseIf_ok_iff {ε : Type} {broken : Bool} {e : ε} :
    refuseIf broken e = .ok () ↔ broken = false := by
  cases broken <;> simp [refuseIf]

theorem validateQueueName_ok_iff {name : String} :
    validateQueueName name = .ok () ↔ queueNameError name = none := by
  rw [validateQueueName]
  cases queueNameError name <;> simp

theorem EffectiveLimits.validate_ok_iff {l : EffectiveLimits} {maxMessageBytes : UInt64}
    {scope : String} :
    l.validate maxMessageBytes scope = .ok () ↔ l.Valid maxMessageBytes := by
  rw [validate, except_bind_eq_ok_iff, except_bind_eq_ok_iff, gardeValidate_ok_iff,
    refuseIf_ok_iff, refuseIf_ok_iff]
  simp only [rules, List.forall_mem_cons, List.not_mem_nil, false_imp_iff, implies_true, and_true,
    decide_eq_true_eq, Bool.and_eq_true, decide_eq_false_iff_not, UInt32.not_lt, UInt64.not_lt,
    Option.all_eq_true, List.all_eq_true]
  constructor
  · rintro ⟨⟨h1, h2, h3, h4, h5, h6, h7, h8, h9, h10, h11, h12, h13⟩, h14, h15⟩
    exact ⟨h1, h2, h3, h4, h5, h6, h7, h8, h9, h10, h11, h12, h13, h14, h15⟩
  · rintro ⟨h1, h2, h3, h4, h5, h6, h7, h8, h9, h10, h11, h12, h13, h14, h15⟩
    exact ⟨⟨h1, h2, h3, h4, h5, h6, h7, h8, h9, h10, h11, h12, h13⟩, h14, h15⟩

/-- The loop over the queues, from the names before. -/
theorem validateQueues_ok_iff (cfg : Config) {queues : List QueueConfig} {seen : List String} :
    validateQueues cfg.limits cfg.defaults seen queues = .ok () ↔
      (∀ q ∈ queues, q.Valid cfg) ∧ (queues.map QueueConfig.name).Nodup ∧
        ∀ q ∈ queues, q.name ∉ seen := by
  induction queues generalizing seen with
  | nil => simp [validateQueues]
  | cons q queues ih =>
    rw [validateQueues, except_bind_eq_ok_iff, except_bind_eq_ok_iff, except_bind_eq_ok_iff,
      except_bind_eq_ok_iff, ih, validateQueueName_ok_iff, refuseIf_ok_iff, refuseIf_ok_iff,
      EffectiveLimits.validate_ok_iff]
    constructor
    · rintro ⟨hname, hlen, hseen, hlimits, hqueues, hnodup, hnew⟩
      have hfirst : q.Valid cfg := ⟨hname, by simpa using hlen, hlimits⟩
      have hother : q.name ∉ queues.map QueueConfig.name := by
        intro hmem
        obtain ⟨q', hq', heq⟩ := List.mem_map.mp hmem
        exact hnew q' hq' (heq ▸ List.mem_cons_self)
      refine ⟨List.forall_mem_cons.mpr ⟨hfirst, hqueues⟩, List.nodup_cons.mpr ⟨hother, hnodup⟩,
        List.forall_mem_cons.mpr ⟨by simpa using hseen, fun q' hq' hmem => ?_⟩⟩
      exact hnew q' hq' (List.mem_cons_of_mem _ hmem)
    · rintro ⟨hvalid, hnodup, hnew⟩
      obtain ⟨hfirst, hqueues⟩ := List.forall_mem_cons.mp hvalid
      obtain ⟨hother, hnodup⟩ := List.nodup_cons.mp hnodup
      obtain ⟨hseen, hnew⟩ := List.forall_mem_cons.mp hnew
      refine ⟨hfirst.name, by simpa using hfirst.name_le, by simpa using hseen, hfirst.limits,
        hqueues, hnodup, fun q' hq' hmem => ?_⟩
      rcases List.mem_cons.mp hmem with heq | hmem
      · exact hother (heq ▸ List.mem_map_of_mem hq')
      · exact hnew q' hq' hmem

/-- What a validated configuration promises. -/
theorem Config.validate_ok_iff {cfg : Config} : cfg.validate = .ok () ↔ cfg.Valid := by
  rw [validate, except_bind_eq_ok_iff, except_bind_eq_ok_iff, except_bind_eq_ok_iff,
    gardeValidate_ok_iff, gardeValidate_ok_iff, EffectiveLimits.validate_ok_iff,
    validateQueues_ok_iff]
  constructor
  · rintro ⟨hlimits, hstorage, hdefaults, hqueues, hnodup, -⟩
    exact ⟨hlimits, hstorage, hdefaults, hqueues, hnodup⟩
  · rintro ⟨hlimits, hstorage, hdefaults, hqueues, hnodup⟩
    exact ⟨hlimits, hstorage, hdefaults, hqueues, hnodup, fun _ _ => List.not_mem_nil⟩

/-- A queue name that the configuration allows fits the length prefix of the keys. -/
theorem Config.Valid.maxQueueNameBytes_le {cfg : Config} (h : cfg.Valid) :
    cfg.limits.maxQueueNameBytes.toNat ≤ 65535 := by
  have hrule := h.limits ("max_queue_name_bytes",
    1 ≤ cfg.limits.maxQueueNameBytes && cfg.limits.maxQueueNameBytes ≤ 65535)
    (by simp [LimitsConfig.rules])
  rw [Bool.and_eq_true, decide_eq_true_iff, decide_eq_true_iff] at hrule
  exact UInt32.le_iff_toNat_le.mp hrule.2

/-- The default configuration is valid. -/
example : Config.validate {} = .ok () := by decide

end Sepp
