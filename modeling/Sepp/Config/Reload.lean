import Sepp.Config.Registry
import Sepp.Config.Sections

/-!
# Reloading the configuration

`apply_reload` and `restart_only_changes` of `src/config_watch.rs`. A reload publishes the limits
of the new configuration at once. What the server took at startup, the deduplication windows
among it, stays as it was, and the reload names the fields that differ.

## Main definitions

* `restartOnlyChanges`, `dedupOverrides`.
* `ReloadState.applyReload`, `ReloadState.reloads` — one reload and a run of them.

## Main results

* `QueueRegistry.declared_eq_some_iff` — the registry finds the entry that has the name.
* `dedupWindowMs_unreported` — a change of a window is always reported.
-/

open Std

namespace Sepp

/-! ### Fields that need a restart -/

/-- The order of `sort_unstable` on pairs of a name and a window. -/
def overrideLe (a b : String × Int64) : Bool :=
  a.1 < b.1 || (a.1 = b.1 && a.2 ≤ b.2)

/-- The declared windows, by name. -/
def dedupOverrides (cfg : FullConfig) : List (String × Int64) :=
  (cfg.queues.filterMap fun q => q.dedupWindowMs.map fun w => (q.name, w)).mergeSort overrideLe

/-- A field that is pushed when it changed. -/
def pushIf (changed : Bool) (field : String) : List String := if changed then [field] else []

/-- Bind address, path and TLS are consumed once during startup. -/
def serverChanges (old new : FullConfig) : List String :=
  pushIf (old.server.listenAddr != new.server.listenAddr) "server.listen_addr" ++
  pushIf (old.server.dbPath != new.server.dbPath) "server.db_path" ++
  pushIf (old.server.tlsCertPath != new.server.tlsCertPath) "server.tls_cert_path" ++
  pushIf (old.server.tlsKeyPath != new.server.tlsKeyPath) "server.tls_key_path" ++
  pushIf (old.limits.maxMessageBytes != new.limits.maxMessageBytes) "limits.max_message_bytes"

/-- The committer keeps the mode, the pace of the sweep and the retention it started with. -/
def committerChanges (old new : FullConfig) : List String :=
  pushIf (old.tuning.persistMode != new.tuning.persistMode) "storage.persist_mode" ++
  pushIf (old.storage.sweepIntervalMs != new.storage.sweepIntervalMs)
    "storage.sweep_interval_ms" ++
  pushIf (old.storage.sweepLimit != new.storage.sweepLimit) "storage.sweep_limit" ++
  pushIf (old.storage.deadLetterRetentionMs != new.storage.deadLetterRetentionMs)
    "storage.dead_letter_retention_ms"

/-- The deadline of a deduplication entry is fixed when its job is inserted. -/
def windowChanges (old new : FullConfig) : List String :=
  pushIf (old.storage.dedupWindowMs != new.storage.dedupWindowMs) "storage.dedup_window_ms" ++
  pushIf (dedupOverrides old != dedupOverrides new) "queues[].dedup_window_ms"

/-- Storage tuning is baked into the database. -/
def tuningChanges (old new : FullConfig) : List String :=
  pushIf (old.storage.commandQueueCapacity != new.storage.commandQueueCapacity)
    "storage.command_queue_capacity" ++
  pushIf (old.tuning.cacheSizeBytes != new.tuning.cacheSizeBytes) "storage.cache_size_bytes" ++
  pushIf (old.tuning.maxJournalingSizeBytes != new.tuning.maxJournalingSizeBytes)
    "storage.max_journaling_size_bytes" ++
  pushIf (old.tuning.maxCachedFiles != new.tuning.maxCachedFiles) "storage.max_cached_files" ++
  pushIf (old.tuning.workerThreads != new.tuning.workerThreads) "storage.worker_threads"

/-- The observability stacks are initialised once, and compared as whole sections. -/
def observabilityChanges (old new : FullConfig) : List String :=
  pushIf (old.logging != new.logging) "logging" ++
  pushIf (old.tracing != new.tracing) "tracing" ++
  pushIf (old.metrics != new.metrics) "metrics"

/-- The admin listener is bound once at startup. -/
def adminChanges (old new : FullConfig) : List String :=
  pushIf (old.admin.enabled != new.admin.enabled) "admin.enabled" ++
  pushIf (old.admin.listenAddr != new.admin.listenAddr) "admin.listen_addr" ++
  pushIf (old.admin.tlsCertPath != new.admin.tlsCertPath) "admin.tls_cert_path" ++
  pushIf (old.admin.tlsKeyPath != new.admin.tlsKeyPath) "admin.tls_key_path"

/-- `restart_only_changes`. -/
def restartOnlyChanges (old new : FullConfig) : List String :=
  serverChanges old new ++ committerChanges old new ++ windowChanges old new ++
    tuningChanges old new ++ observabilityChanges old new ++ adminChanges old new

/-! ### Reloads -/

/-- `Config::load`, from what the file and the environment parse to. -/
def FullConfig.load (extracted : Except ConfigError FullConfig) : Except ConfigError FullConfig := do
  let config ← extracted
  config.validate
  return config

/-- `ReloadState`: the running configuration, the published registry and the keys of the
interceptor. -/
structure ReloadState where
  config : FullConfig
  registry : QueueRegistry
  apiKeys : Option (List ApiKeyEntry)

namespace ReloadState

/-- The state that the server starts with. -/
def boot (config : FullConfig) : ReloadState where
  config := config
  registry := QueueRegistry.fromConfig config.toConfig
  apiKeys := config.auth.apiKeys

/-- `apply_reload`, with the fields that it warns about. -/
def applyReload (state : ReloadState) (extracted : Except ConfigError FullConfig) :
    ReloadState × List String :=
  match FullConfig.load extracted with
  | .error _ => (state, [])
  | .ok new =>
    if state.config == new then (state, [])
    else (boot new, restartOnlyChanges state.config new)

/-- A run of reloads, with the warnings of each. -/
def reloads (state : ReloadState) :
    List (Except ConfigError FullConfig) → ReloadState × List (List String)
  | [] => (state, [])
  | extracted :: rest =>
    let (state, warned) := state.applyReload extracted
    let (state, later) := state.reloads rest
    (state, warned :: later)

end ReloadState

/-! ### The windows of the queues -/

/-- The registry of a valid configuration finds the entry that has the name. -/
theorem QueueRegistry.declared_eq_some_iff {cfg : Config} (h : cfg.Valid) {queue : String}
    {q : QueueConfig} :
    (fromConfig cfg).declared[queue]? = some q ↔ q ∈ cfg.queues ∧ q.name = queue := by
  refine ⟨mem_queues_of_declared cfg queue, ?_⟩
  rintro ⟨hmem, hname⟩
  have hdeclared := (isDeclared_iff cfg queue).mpr ⟨q, hmem, hname⟩
  rw [isDeclared, ← ExtTreeMap.mem_iff_contains, ExtTreeMap.mem_iff_isSome_getElem?] at hdeclared
  obtain ⟨found, hfound⟩ := Option.isSome_iff_exists.mp hdeclared
  obtain ⟨hmem', hname'⟩ := mem_queues_of_declared cfg queue hfound
  rw [hfound, List.inj_on_of_nodup_map h.nodup hmem' hmem (hname'.trans hname.symm)]

/-- The declared window of a queue, as the registry reads it, is one of the overrides. -/
theorem QueueRegistry.declared_dedupWindowMs_iff {cfg : FullConfig} (h : cfg.toConfig.Valid)
    {queue : String} {w : Int64} :
    (fromConfig cfg.toConfig).declared[queue]?.bind QueueConfig.dedupWindowMs = some w ↔
      (queue, w) ∈ dedupOverrides cfg := by
  rw [Option.bind_eq_some_iff, dedupOverrides, List.mem_mergeSort, List.mem_filterMap]
  constructor
  · rintro ⟨q, hq, hw⟩
    obtain ⟨hmem, hname⟩ := (declared_eq_some_iff h).mp hq
    exact ⟨q, hmem, by rw [hw, Option.map_some, hname]⟩
  · rintro ⟨q, hmem, hw⟩
    obtain ⟨w', hw', heq⟩ := Option.map_eq_some_iff.mp hw
    obtain ⟨hname, rfl⟩ := Prod.mk.inj heq
    exact ⟨q, (declared_eq_some_iff h).mpr ⟨hmem, hname⟩, hw'⟩

/-- Neither field on deduplication windows is named. -/
def WindowsUnreported (warned : List String) : Prop :=
  "storage.dedup_window_ms" ∉ warned ∧ "queues[].dedup_window_ms" ∉ warned

theorem eq_of_notMem_pushIf {α : Type} [BEq α] [LawfulBEq α] {a b : α} (field : String)
    (h : field ∉ pushIf (a != b) field) : a = b := by
  by_contra hne
  rw [pushIf, if_pos (bne_iff_ne.mpr hne)] at h
  exact h List.mem_cons_self

theorem mem_restartOnlyChanges_of_windows {old new : FullConfig} {field : String}
    (h : field ∈ windowChanges old new) : field ∈ restartOnlyChanges old new := by
  simp only [restartOnlyChanges, List.mem_append, h, true_or, or_true]

/-- What a reload that names neither field leaves as it was. -/
theorem WindowsUnreported.eq {old new : FullConfig}
    (h : WindowsUnreported (restartOnlyChanges old new)) :
    old.storage.dedupWindowMs = new.storage.dedupWindowMs ∧
      dedupOverrides old = dedupOverrides new := by
  obtain ⟨hglobal, hqueues⟩ := h
  constructor
  · refine eq_of_notMem_pushIf "storage.dedup_window_ms" fun hmem => hglobal ?_
    exact mem_restartOnlyChanges_of_windows (List.mem_append_left _ hmem)
  · refine eq_of_notMem_pushIf "queues[].dedup_window_ms" fun hmem => hqueues ?_
    exact mem_restartOnlyChanges_of_windows (List.mem_append_right _ hmem)

/-- Without a report every queue keeps its window. -/
theorem QueueRegistry.dedupWindowMs_eq_of_unreported {old new : FullConfig}
    (hold : old.toConfig.Valid) (hnew : new.toConfig.Valid)
    (h : WindowsUnreported (restartOnlyChanges old new)) (queue : String) :
    (fromConfig old.toConfig).dedupWindowMs queue =
      (fromConfig new.toConfig).dedupWindowMs queue := by
  obtain ⟨hglobal, hoverrides⟩ := h.eq
  have hdeclared : (fromConfig old.toConfig).declared[queue]?.bind QueueConfig.dedupWindowMs =
      (fromConfig new.toConfig).declared[queue]?.bind QueueConfig.dedupWindowMs := by
    apply Option.ext
    intro w
    rw [declared_dedupWindowMs_iff hold, declared_dedupWindowMs_iff hnew, hoverrides]
  rw [dedupWindowMs, dedupWindowMs, hdeclared]
  exact congrArg _ hglobal

/-! ### Runs of reloads -/

/-- The registry is that of the running configuration, which is valid. -/
structure ReloadState.Sound (state : ReloadState) : Prop where
  valid : state.config.validate = .ok ()
  registry : state.registry = QueueRegistry.fromConfig state.config.toConfig

/-- What is loaded is what was read, and valid. -/
theorem FullConfig.load_eq_ok_iff {extracted : Except ConfigError FullConfig} {cfg : FullConfig} :
    FullConfig.load extracted = .ok cfg ↔ extracted = .ok cfg ∧ cfg.validate = .ok () := by
  cases extracted with
  | error e => exact iff_of_false (fun h => by cases h) fun h => by cases h.1
  | ok read =>
    cases hvalid : read.validate with
    | error e =>
      simp only [load, bind, Except.bind, hvalid, reduceCtorEq, Except.ok.injEq, false_iff, not_and]
      rintro rfl
      rw [hvalid]
      exact fun h => by cases h
    | ok u =>
      simp only [load, bind, Except.bind, hvalid, pure, Except.pure, Except.ok.injEq]
      exact ⟨fun h => ⟨h, h ▸ hvalid⟩, fun h => h.1⟩

/-- One reload: the state stays sound, and without a report every queue keeps its window. -/
theorem ReloadState.Sound.applyReload {state : ReloadState} (h : state.Sound)
    (extracted : Except ConfigError FullConfig) :
    (state.applyReload extracted).1.Sound ∧
      (WindowsUnreported (state.applyReload extracted).2 → ∀ queue,
        (state.applyReload extracted).1.registry.dedupWindowMs queue =
          state.registry.dedupWindowMs queue) := by
  rw [ReloadState.applyReload]
  cases hload : FullConfig.load extracted with
  | error e => exact ⟨h, fun _ _ => rfl⟩
  | ok new =>
    obtain ⟨-, hnew⟩ := FullConfig.load_eq_ok_iff.mp hload
    dsimp only
    split_ifs with hsame
    · exact ⟨h, fun _ _ => rfl⟩
    · refine ⟨⟨hnew, rfl⟩, fun hwarned queue => ?_⟩
      rw [h.registry]
      exact (QueueRegistry.dedupWindowMs_eq_of_unreported (FullConfig.validate_ok h.valid).1
        (FullConfig.validate_ok hnew).1 hwarned queue).symm

/-- A run of reloads that report no change of a window ends with the windows it began with. -/
theorem ReloadState.Sound.reloads {state : ReloadState} (h : state.Sound)
    (extracts : List (Except ConfigError FullConfig))
    (hwarned : ∀ warned ∈ (state.reloads extracts).2, WindowsUnreported warned) (queue : String) :
    (state.reloads extracts).1.registry.dedupWindowMs queue =
      state.registry.dedupWindowMs queue := by
  induction extracts generalizing state with
  | nil => rfl
  | cons extracted rest ih =>
    obtain ⟨hsound, hkept⟩ := h.applyReload extracted
    obtain ⟨hfirst, hlater⟩ := List.forall_mem_cons.mp hwarned
    calc (state.reloads (extracted :: rest)).1.registry.dedupWindowMs queue
        = (state.applyReload extracted).1.registry.dedupWindowMs queue := ih hsound hlater
      _ = state.registry.dedupWindowMs queue := hkept hfirst queue

/-- A change of a deduplication window is always reported: between two valid configurations, and
along a run of reloads against the windows that were taken at boot. -/
theorem dedupWindowMs_unreported :
    (∀ old new : FullConfig, old.validate = .ok () → new.validate = .ok () →
      "storage.dedup_window_ms" ∉ restartOnlyChanges old new →
      "queues[].dedup_window_ms" ∉ restartOnlyChanges old new →
      ∀ queue, (QueueRegistry.fromConfig old.toConfig).dedupWindowMs queue =
        (QueueRegistry.fromConfig new.toConfig).dedupWindowMs queue) ∧
    ∀ (config : FullConfig) (extracts : List (Except ConfigError FullConfig)),
      config.validate = .ok () →
      (∀ warned ∈ ((ReloadState.boot config).reloads extracts).2,
        "storage.dedup_window_ms" ∉ warned ∧ "queues[].dedup_window_ms" ∉ warned) →
      ∀ queue, ((ReloadState.boot config).reloads extracts).1.registry.dedupWindowMs queue =
        (QueueRegistry.fromConfig config.toConfig).dedupWindowMs queue := by
  constructor
  · intro old new hold hnew hglobal hqueues queue
    exact QueueRegistry.dedupWindowMs_eq_of_unreported (FullConfig.validate_ok hold).1
      (FullConfig.validate_ok hnew).1 ⟨hglobal, hqueues⟩ queue
  · intro config extracts hvalid hwarned queue
    have hsound : (ReloadState.boot config).Sound := ⟨hvalid, rfl⟩
    exact hsound.reloads extracts hwarned queue

/-- Two queues, one with a window of its own. -/
def ownWindow : FullConfig where
  queues := [{ name := "a", dedupWindowMs := some 5000 }, { name := "b" }]

/-- The same two the other way round with a third, and new limits for the first. -/
def reordered : FullConfig where
  queues := [{ name := "c" }, { name := "b" },
    { name := "a", dedupWindowMs := some 5000, maxQueueDepth := some 10 }]

theorem dedupWindowMs_unreported_reordered :
    (ownWindow.validate = .ok () ∧ reordered.validate = .ok ()) ∧
      (∀ queue, (QueueRegistry.fromConfig ownWindow.toConfig).dedupWindowMs queue =
        (QueueRegistry.fromConfig reordered.toConfig).dedupWindowMs queue) ∧
      ∀ queue, ((ReloadState.boot ownWindow).reloads [.ok reordered]).1.registry.dedupWindowMs
        queue = (QueueRegistry.fromConfig ownWindow.toConfig).dedupWindowMs queue := by
  have htwo : ownWindow.validate = .ok () := by decide +kernel
  have hthree : reordered.validate = .ok () := by decide +kernel
  refine ⟨⟨htwo, hthree⟩, ?_, ?_⟩
  · exact dedupWindowMs_unreported.1 ownWindow reordered htwo hthree (by decide +kernel)
      (by decide +kernel)
  · refine dedupWindowMs_unreported.2 ownWindow [.ok reordered] htwo ?_
    decide +kernel

end Sepp
