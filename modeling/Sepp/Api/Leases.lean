import Sepp.Api.Classify
import Sepp.Config.Backoff
import Sepp.Store.Op
import Sepp.Store.Tx

/-!
# What is resolved before an operation is proposed

`QueueServer::reserve` of `src/queue_server.rs` up to its call of the storage layer, and
`resolve_retry_delay` and `resolve_extend_lease` of `src/storage.rs`. A lease is clamped to the
limit of its queue, and a nack that asks for no delay gets the delay of its queue. Both look up the
queue of the job, unless a summary of the registry says that every queue would answer alike.

`Duration::normalized` is a function of `prost_types`, and a parameter here. A read that fails ends
the request; only reads that do not fail are modelled.

## Main definitions

* `durationToMillis`, `resolveReserve`, `resolveExtendLease`, `resolveRetryDelay`.
* `lookupExtendLease`, `lookupRetryDelay` — the same without the shortcut.

## Main results

* `resolveExtendLease_ok`, `resolveReserve_ok` — what a request that is let through has resolved.
-/

namespace Sepp

/-- `u64::saturating_add`. -/
def saturatingAddU64 (a b : UInt64) : UInt64 := UInt64.ofNat (min (a.toNat + b.toNat) (2 ^ 64 - 1))

/-- `ReadHandle::queue_of_inflight_job`. -/
def queueOfInflightJob [Prost] (rows : Rows) (jobId : String) : Except Status (Option String) :=
  match rows.inflight[asBytes jobId]? with
  | none => .ok none
  | some stored => (Inflight.decode stored).map fun inflight => some inflight.queue

/-- The vector of names in a message. -/
def quotedList (names : List String) : String :=
  "[" ++ ", ".intercalate (names.map debugStr) ++ "]"

section Resolve

variable (durationNormalized : Duration → Duration)

/-- `duration_to_millis`. -/
def durationToMillis (d : Duration) : UInt64 :=
  let norm := durationNormalized d
  saturatingAddU64 (saturatingMulU64 (UInt64.ofNat norm.seconds.toInt.toNat) 1000)
    (UInt64.ofNat (norm.nanos.toInt.toNat / 1000000))

/-! ### Reserve -/

/-- The check of `reserve` for names that are too long. -/
def checkQueueNames (queues : List String) (maxQueueNameBytes : UInt32) : Except Status Unit :=
  match queues.find? fun queue => maxQueueNameBytes.toNat < byteLen queue with
  | some queue => .error ⟨.invalidArgument, "queue name " ++ debugStr queue ++
      " exceeds max_queue_name_bytes (" ++ toString maxQueueNameBytes ++ ")"⟩
  | none => .ok ()

/-- `reserve` until its first call of `reserve_once`, which this is. The wait of an empty reserve,
which only repeats the call, is left out. -/
def resolveReserve (req : ReserveRequest) (registry : QueueRegistry) (strictQueues : Bool)
    (server : ServerLimits) : Except Status Op := do
  (Validate.reserveRequest req).mapError (Status.mk .invalidArgument)
  refuseIf (server.maxReserveQueues.toNat < req.queues.length)
    ⟨.invalidArgument, "reserve exceeds max_reserve_queues (" ++ toString server.maxReserveQueues ++
      ")"⟩
  checkQueueNames req.queues server.maxQueueNameBytes
  let unknown := req.queues.filter fun queue => !registry.isDeclared queue
  refuseIf (strictQueues && !unknown.isEmpty)
    ⟨.failedPrecondition, "queue(s) not declared (strict mode): " ++ quotedList unknown⟩
  let maxLease := ((req.queues.map fun queue =>
    (registry.effective queue).maxLeaseDurationMs).min?).getD 0xFFFFFFFFFFFFFFFF
  let lease := max (min ((req.leaseDuration.map (durationToMillis durationNormalized)).getD 0)
    maxLease) 1
  let maxJobs := min (max (req.maxJobs.getD 1) 1) server.maxReserveBatch
  return .reserve req.queues lease maxJobs.toUInt64 0

/-! ### Extend -/

/-- What `resolve_extend_lease` reads out of the request. -/
def requestedLease (req : ExtendRequest) : UInt64 :=
  max ((req.leaseDuration.map (durationToMillis durationNormalized)).getD 0) 1

/-- `resolve_extend_lease` after its fast path. -/
def lookupExtendLease [Prost] (req : ExtendRequest) (registry : QueueRegistry) (rows : Rows) :
    Except Status UInt64 := do
  match ← queueOfInflightJob rows req.jobId with
  | none => .error ⟨.notFound, "job not found"⟩
  | some queue =>
    return min (requestedLease durationNormalized req) (registry.effective queue).maxLeaseDurationMs

/-- `Storage::resolve_extend_lease`. -/
def resolveExtendLease [Prost] (req : ExtendRequest) (registry : QueueRegistry) (rows : Rows) :
    Except Status UInt64 :=
  if requestedLease durationNormalized req ≤ registry.minMaxLeaseMs then
    .ok (requestedLease durationNormalized req)
  else lookupExtendLease durationNormalized req registry rows

/-! ### Nack -/

/-- The delay that the nack itself asks for. -/
def explicitDelay (req : NackRequest) : Option UInt64 :=
  match req.retry.bind NackRetry.strategy with
  | some (.delay d) => some (durationToMillis durationNormalized d)
  | _ => none

/-- `resolve_retry_delay` after its shortcut. -/
def lookupRetryDelay [Prost] (retryJitterHash : String → UInt32 → UInt64)
    (req : NackRequest) (registry : QueueRegistry) (rows : Rows) : Except Status UInt64 := do
  match ← queueOfInflightJob rows req.jobId with
  | none => return 0
  | some queue =>
    let policy := registry.retryPolicy queue
    match explicitDelay durationNormalized req with
    | some ms => return min ms policy.maxScheduleHorizonMs
    | none => return policyRetryDelayMs retryJitterHash policy req.attempt req.jobId

/-- `Storage::resolve_retry_delay`. The registry is loaded again after the lookup. -/
def resolveRetryDelay [Prost] (retryJitterHash : String → UInt32 → UInt64)
    (req : NackRequest) (registry later : QueueRegistry) (rows : Rows) : Except Status UInt64 :=
  if (explicitDelay durationNormalized req).isNone && !registry.anyRetryPolicy then .ok 0
  else lookupRetryDelay durationNormalized retryJitterHash req later rows

/-! ### What is let through -/

theorem one_le_max (a : UInt64) : 1 ≤ max a 1 := by
  by_cases hle : a ≤ 1
  · rw [show max a 1 = 1 from if_pos hle]
    exact UInt64.le_refl 1
  · rw [show max a 1 = a from if_neg hle]
    exact (UInt64.le_total a 1).resolve_left hle

theorem max_one_le {a b : UInt64} (hle : a ≤ b) (hone : 1 ≤ b) : max a 1 ≤ b := by
  by_cases hsmall : a ≤ 1
  · rwa [show max a 1 = 1 from if_pos hsmall]
  · rwa [show max a 1 = a from if_neg hsmall]

theorem max_one_eq {a : UInt64} (h : 1 ≤ a) : max a 1 = a := by
  by_cases hsmall : a ≤ 1
  · rw [show max a 1 = 1 from if_pos hsmall]
    exact UInt64.le_antisymm h hsmall
  · exact if_neg hsmall

theorem one_le_min {a b : UInt64} (ha : 1 ≤ a) (hb : 1 ≤ b) : 1 ≤ min a b := by
  by_cases hle : a ≤ b
  · rwa [show min a b = a from if_pos hle]
  · rwa [show min a b = b from if_neg hle]

theorem checkQueueNames_ok {queues : List String} {maxQueueNameBytes : UInt32}
    (h : checkQueueNames queues maxQueueNameBytes = .ok ()) :
    ∀ queue ∈ queues, byteLen queue ≤ maxQueueNameBytes.toNat := by
  rw [checkQueueNames] at h
  split at h
  · cases h
  · rename_i hnone
    intro queue hqueue
    simpa using List.find?_eq_none.mp hnone queue hqueue

/-- The smallest limit of the queues is no larger than the limit of any of them. -/
theorem min?_getD_le {queues : List String} {limit : String → UInt64} {queue : String}
    (hqueue : queue ∈ queues) (otherwise : UInt64) :
    ((queues.map limit).min?).getD otherwise ≤ limit queue := by
  cases queues with
  | nil => cases hqueue
  | cons q queues =>
    obtain ⟨hinit, hrest⟩ := QueueRegistry.foldl_min_le (queues.map limit) (limit q)
    rw [List.map_cons, List.min?_cons', Option.getD_some]
    rcases List.mem_cons.mp hqueue with rfl | hqueue
    · exact hinit
    · exact hrest _ (List.mem_map_of_mem hqueue)

variable {durationNormalized : Duration → Duration}

/-- A reserve that is let through asks for names that are not too long, and its lease is in the
limits of all its queues. -/
theorem resolveReserve_ok {req : ReserveRequest} {registry : QueueRegistry} {strictQueues : Bool}
    {server : ServerLimits} {op : Op}
    (hlimits : ∀ queue, 1 ≤ (registry.effective queue).maxLeaseDurationMs)
    (h : resolveReserve durationNormalized req registry strictQueues server = .ok op) :
    ∃ lease maxJobs, op = .reserve req.queues lease maxJobs 0 ∧
      (∀ queue ∈ req.queues, byteLen queue ≤ server.maxQueueNameBytes.toNat) ∧
      1 ≤ lease ∧ ∀ queue ∈ req.queues, lease ≤ (registry.effective queue).maxLeaseDurationMs := by
  obtain ⟨⟨⟩, -, h⟩ := except_bind_eq_ok h
  obtain ⟨⟨⟩, -, h⟩ := except_bind_eq_ok h
  obtain ⟨⟨⟩, hnames, h⟩ := except_bind_eq_ok h
  obtain ⟨⟨⟩, -, h⟩ := except_bind_eq_ok h
  refine ⟨_, _, (Except.ok.inj h).symm, checkQueueNames_ok hnames, one_le_max _,
    fun queue hqueue => ?_⟩
  exact max_one_le (UInt64.le_trans Std.min_le_right (min?_getD_le hqueue _)) (hlimits queue)

/-- An extend that is let through has at least a millisecond, and no more than every queue allows,
or no more than the queue of the job allows. -/
theorem resolveExtendLease_ok [Prost] {req : ExtendRequest} {registry : QueueRegistry}
    {rows : Rows} {lease : UInt64}
    (hlimits : ∀ queue, 1 ≤ (registry.effective queue).maxLeaseDurationMs)
    (h : resolveExtendLease durationNormalized req registry rows = .ok lease) :
    1 ≤ lease ∧ (lease ≤ registry.minMaxLeaseMs ∨
      ∃ queue, queueOfInflightJob rows req.jobId = .ok (some queue) ∧
        lease ≤ (registry.effective queue).maxLeaseDurationMs) := by
  rw [resolveExtendLease] at h
  split_ifs at h with hfast
  · obtain rfl := Except.ok.inj h
    exact ⟨one_le_max _, .inl hfast⟩
  · obtain ⟨found, hfound, h⟩ := except_bind_eq_ok h
    cases found with
    | none => cases h
    | some queue =>
      obtain rfl := Except.ok.inj h
      exact ⟨one_le_min (one_le_max _) (hlimits queue), .inr ⟨queue, hfound, Std.min_le_right⟩⟩

end Resolve

end Sepp
