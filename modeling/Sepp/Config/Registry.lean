import Sepp.Config.Limits
import Mathlib.Data.UInt

/-!
# The queue registry

`QueueRegistry` and `RetryPolicy` of `src/queues.rs`. The registry holds the global limits and the
declared queues of a configuration, with two summaries that let a caller skip the lookup of a
job's queue: whether any queue delays its retries, and the smallest lease limit of all queues.

## Main definitions

* `QueueRegistry.fromConfig`, `QueueRegistry.effective`, `QueueRegistry.retryPolicy`.

## Main results

* `QueueRegistry.effective_valid` — the limits of every queue, declared or not, are in range.
* `QueueRegistry.minMaxLeaseMs_le`, `QueueRegistry.retryDelayMs_eq_zero` — the summaries speak for
  every queue.
-/

open Std

namespace Sepp

/-- `QueueRegistry`. The generation, which only numbers the snapshots, is left out. -/
structure QueueRegistry where
  defaults : EffectiveLimits
  declared : ExtTreeMap String QueueConfig compare
  anyRetryPolicy : Bool
  minMaxLeaseMs : UInt64

/-- `RetryPolicy`: the limits of a queue that a nack reads. -/
structure RetryPolicy where
  retryDelayMs : UInt64
  retryBackoff : RetryBackoff
  retryDelayMaxMs : UInt64
  maxScheduleHorizonMs : UInt64
deriving DecidableEq, Repr

namespace QueueRegistry

/-- `QueueRegistry::from_config`. Of two entries with one name the later one is kept. -/
def fromConfig (cfg : Config) : QueueRegistry where
  defaults := cfg.defaults
  declared := cfg.queues.foldl (fun declared q => declared.insert q.name q) ∅
  anyRetryPolicy := 0 < cfg.defaults.retryDelayMs ||
    cfg.queues.any fun q => q.retryDelayMs.any fun v => 0 < v
  minMaxLeaseMs := (cfg.queues.filterMap QueueConfig.maxLeaseDurationMs).foldl min
    cfg.defaults.maxLeaseDurationMs

/-- `QueueRegistry::effective`. -/
def effective (reg : QueueRegistry) (queue : String) : EffectiveLimits :=
  match reg.declared[queue]? with
  | some q => reg.defaults.mergedWith q
  | none => reg.defaults

/-- `QueueRegistry::retry_policy`. -/
def retryPolicy (reg : QueueRegistry) (queue : String) : RetryPolicy :=
  let q := reg.declared[queue]?
  { retryDelayMs := (q.bind QueueConfig.retryDelayMs).getD reg.defaults.retryDelayMs
    retryBackoff := (q.bind QueueConfig.retryBackoff).getD reg.defaults.retryBackoff
    retryDelayMaxMs := (q.bind QueueConfig.retryDelayMaxMs).getD reg.defaults.retryDelayMaxMs
    maxScheduleHorizonMs :=
      (q.bind QueueConfig.maxScheduleHorizonMs).getD reg.defaults.maxScheduleHorizonMs }

/-- `QueueRegistry::dedup_window_ms`. -/
def dedupWindowMs (reg : QueueRegistry) (queue : String) : Int64 :=
  (reg.declared[queue]?.bind QueueConfig.dedupWindowMs).getD reg.defaults.dedupWindowMs

/-- `QueueRegistry::is_declared`. -/
def isDeclared (reg : QueueRegistry) (queue : String) : Bool := reg.declared.contains queue

end QueueRegistry

/-- The retry policy of a queue is part of its limits. -/
def EffectiveLimits.retryPolicy (l : EffectiveLimits) : RetryPolicy where
  retryDelayMs := l.retryDelayMs
  retryBackoff := l.retryBackoff
  retryDelayMaxMs := l.retryDelayMaxMs
  maxScheduleHorizonMs := l.maxScheduleHorizonMs

namespace QueueRegistry

variable (reg : QueueRegistry) (cfg : Config) (queue : String)

/-! ### The cheap accessors agree with the limits -/

theorem retryPolicy_eq : reg.retryPolicy queue = (reg.effective queue).retryPolicy := by
  rw [retryPolicy, effective]
  cases reg.declared[queue]? with
  | none => rfl
  | some q => rfl

theorem dedupWindowMs_eq : reg.dedupWindowMs queue = (reg.effective queue).dedupWindowMs := by
  rw [dedupWindowMs, effective]
  cases reg.declared[queue]? with
  | none => rfl
  | some q => rfl

/-! ### What is declared -/

/-- What the loop over the entries keeps under a name. -/
theorem getElem?_foldl_insert {queues : List QueueConfig}
    {declared : ExtTreeMap String QueueConfig compare} {q : QueueConfig}
    (h : (queues.foldl (fun declared q => declared.insert q.name q) declared)[queue]? = some q) :
    q ∈ queues ∧ q.name = queue ∨ declared[queue]? = some q := by
  induction queues generalizing declared with
  | nil => exact .inr h
  | cons q' queues ih =>
    rcases ih h with ⟨hmem, hname⟩ | hrest
    · exact .inl ⟨List.mem_cons_of_mem _ hmem, hname⟩
    · rw [ExtTreeMap.getElem?_insert] at hrest
      split_ifs at hrest with hcmp
      · obtain rfl := Option.some.inj hrest
        exact .inl ⟨List.mem_cons_self, Std.compare_eq_iff_eq.mp hcmp⟩
      · exact .inr hrest

theorem mem_queues_of_declared {q : QueueConfig}
    (h : (fromConfig cfg).declared[queue]? = some q) : q ∈ cfg.queues ∧ q.name = queue := by
  rcases getElem?_foldl_insert queue h with hmem | hempty
  · exact hmem
  · simp at hempty

/-- A queue is declared when an entry has its name. -/
theorem isDeclared_iff : (fromConfig cfg).isDeclared queue = true ↔
    ∃ q ∈ cfg.queues, q.name = queue := by
  have hmem : ∀ (queues : List QueueConfig) (declared : ExtTreeMap String QueueConfig compare),
      queue ∈ queues.foldl (fun declared q => declared.insert q.name q) declared ↔
        (∃ q ∈ queues, q.name = queue) ∨ queue ∈ declared := by
    intro queues
    induction queues with
    | nil => simp
    | cons q queues ih =>
      intro declared
      rw [List.foldl_cons, ih, ExtTreeMap.mem_insert, Std.compare_eq_iff_eq]
      simp [or_assoc, or_left_comm]
  rw [isDeclared, ← ExtTreeMap.mem_iff_contains, fromConfig, hmem]
  simp

/-- The limits of a queue are the global ones, or those of its entry. -/
theorem effective_cases : (fromConfig cfg).effective queue = cfg.defaults ∨
    ∃ q ∈ cfg.queues, q.name = queue ∧
      (fromConfig cfg).effective queue = cfg.defaults.mergedWith q := by
  rw [effective]
  cases hq : (fromConfig cfg).declared[queue]? with
  | none => exact .inl rfl
  | some q =>
    obtain ⟨hmem, hname⟩ := mem_queues_of_declared cfg queue hq
    exact .inr ⟨q, hmem, hname, rfl⟩

variable {cfg}

/-- The limits of every queue, declared or not, are in range. -/
theorem effective_valid (h : cfg.Valid) :
    ((fromConfig cfg).effective queue).Valid cfg.limits.maxMessageBytes := by
  rcases effective_cases cfg queue with heq | ⟨q, hq, -, heq⟩ <;> rw [heq]
  · exact h.defaults
  · exact (h.queues q hq).limits

/-! ### The summaries -/

/-- Without a retry policy anywhere no queue delays its retries. -/
theorem retryDelayMs_eq_zero (h : (fromConfig cfg).anyRetryPolicy = false) :
    ((fromConfig cfg).effective queue).retryDelayMs = 0 := by
  rw [fromConfig, Bool.or_eq_false_iff, decide_eq_false_iff_not, List.any_eq_false] at h
  obtain ⟨hdefaults, hqueues⟩ := h
  have hzero : cfg.defaults.retryDelayMs = 0 := by
    have := UInt64.not_lt.mp hdefaults
    exact UInt64.le_zero_iff.mp this
  rcases effective_cases cfg queue with heq | ⟨q, hq, -, heq⟩ <;> rw [heq]
  · exact hzero
  · rw [EffectiveLimits.mergedWith]
    cases hdelay : q.retryDelayMs with
    | none => exact hzero
    | some v =>
      have hv := hqueues q hq
      rw [hdelay] at hv
      have hle : v ≤ 0 := by simpa using hv
      exact UInt64.le_zero_iff.mp hle

theorem foldl_min_le (values : List UInt64) (init : UInt64) :
    values.foldl min init ≤ init ∧ ∀ v ∈ values, values.foldl min init ≤ v := by
  induction values generalizing init with
  | nil => exact ⟨UInt64.le_refl init, fun v hv => absurd hv List.not_mem_nil⟩
  | cons v values ih =>
    obtain ⟨hinit, hvalues⟩ := ih (min init v)
    refine ⟨UInt64.le_trans hinit Std.min_le_left, List.forall_mem_cons.mpr ⟨?_, hvalues⟩⟩
    exact UInt64.le_trans hinit Std.min_le_right

/-- No queue has a smaller lease limit than the smallest. -/
theorem minMaxLeaseMs_le :
    (fromConfig cfg).minMaxLeaseMs ≤ ((fromConfig cfg).effective queue).maxLeaseDurationMs := by
  obtain ⟨hdefaults, hqueues⟩ := foldl_min_le
    (cfg.queues.filterMap QueueConfig.maxLeaseDurationMs) cfg.defaults.maxLeaseDurationMs
  rcases effective_cases cfg queue with heq | ⟨q, hq, -, heq⟩ <;> rw [heq]
  · exact hdefaults
  · rw [EffectiveLimits.mergedWith]
    cases hlease : q.maxLeaseDurationMs with
    | none => exact hdefaults
    | some v => exact hqueues v (List.mem_filterMap.mpr ⟨q, hq, hlease⟩)

end QueueRegistry

end Sepp
