import Sepp.Config.Limits

/-!
# The whole configuration

`Config` of `src/config.rs` with all its sections, and `Config::validate` with the rules on TLS,
keys, logging and telemetry that `Sepp.Config.Limits` leaves out. The part on limits is the
`Config` of that module, and a configuration that passes here passes there.

## Main definitions

* `FullConfig`, `FullConfig.validate`.

## Main results

* `FullConfig.validate_ok` — what a loaded configuration promises: its limits are valid, and no
  two admin keys share a name or a secret.
-/

namespace Sepp

/-! ### Sections -/

/-- `SocketAddr`: the bits of the address, the port and, for IPv6, the flow and the scope. -/
inductive SocketAddr where
  | v4 (ip : BitVec 32) (port : UInt16)
  | v6 (ip : BitVec 128) (port : UInt16) (flowinfo scopeId : UInt32)
deriving DecidableEq, Repr

/-- `IpAddr::is_loopback`: `127.0.0.0/8` and `::1`. -/
def SocketAddr.isLoopback : SocketAddr → Bool
  | .v4 ip _ => ip >>> 24 = 127#32
  | .v6 ip _ _ _ => ip = 1#128

/-- `[server]`; `strict_queues` is kept with the limits. -/
structure ServerConfig where
  listenAddr : SocketAddr := .v4 0x00000000 50051
  dbPath : String := "./sepp-data"
  tlsCertPath : Option String := none
  tlsKeyPath : Option String := none
deriving DecidableEq, Repr

/-- A named gRPC key. -/
structure ApiKeyEntry where
  name : String
  key : String
deriving DecidableEq, Repr

/-- `[auth]`. Without `api_keys` authentication is off; an empty list denies everyone. -/
structure AuthConfig where
  apiKeys : Option (List ApiKeyEntry) := none
deriving DecidableEq, Repr

/-- How far a commit has to get before it is answered. -/
inductive PersistMode where
  | syncAll
  | syncData
  | buffer
deriving DecidableEq, Repr

/-- The fields of `[storage]` that only the database reads. -/
structure StorageTuning where
  persistMode : PersistMode := .syncAll
  cacheSizeBytes : Option UInt64 := none
  maxJournalingSizeBytes : Option UInt64 := none
  maxCachedFiles : Option UInt64 := none
  workerThreads : Option UInt64 := none
deriving DecidableEq, Repr

/-- How log lines are written. -/
inductive LogFormat where
  | text
  | json
deriving DecidableEq, Repr

/-- `[logging]`. -/
structure LoggingConfig where
  level : String := "info,lsm_tree=warn,fjall=warn"
  format : LogFormat := .text
deriving DecidableEq, Repr

/-- `f64`, by its bits. -/
structure F64 where
  bits : UInt64
deriving Repr

namespace F64

/-- The exponent is all ones, and the mantissa is not zero. -/
def isNan (x : F64) : Bool := 0x7FF0000000000000 < x.bits &&& 0x7FFFFFFFFFFFFFFF

/-- Equality of numbers: not a number is unequal to itself, and the two zeros are equal. -/
instance : BEq F64 where
  beq x y := !x.isNan && !y.isNan &&
    (x.bits = y.bits || (x.bits ||| y.bits) &&& 0x7FFFFFFFFFFFFFFF = 0)

/-- `x < 0.0`: a sign, and neither a zero nor not a number. -/
def isBelowZero (x : F64) : Bool := 0x8000000000000000 < x.bits && x.bits ≤ 0xFFF0000000000000

/-- `1.0 < x`. -/
def isAboveOne (x : F64) : Bool := 0x3FF0000000000000 < x.bits && x.bits ≤ 0x7FF0000000000000

end F64

/-- `[tracing]`. Everything is sampled by default. -/
structure TracingConfig where
  enabled : Bool := false
  otlpEndpoint : String := "http://localhost:4317"
  serviceName : String := "sepp"
  sampleRatio : F64 := ⟨0x3FF0000000000000⟩
deriving BEq, Repr

/-- `[metrics]`. -/
structure MetricsConfig where
  enabled : Bool := false
  otlpEndpoint : String := "http://localhost:4317"
  exportIntervalMs : UInt64 := 5000
  prometheusEnabled : Bool := false
  prometheusListenAddr : SocketAddr := .v4 0x00000000 9464
deriving DecidableEq, Repr

/-- What an admin key allows, from least to most. -/
inductive Role where
  | viewer
  | operator
  | admin
deriving DecidableEq, Repr

/-- A named admin key. -/
structure AdminKey where
  name : String
  key : String
  role : Role := .admin
deriving DecidableEq, Repr

/-- `[admin]`. Without `keys` authentication is off. -/
structure AdminConfig where
  enabled : Bool := true
  listenAddr : SocketAddr := .v4 0x7F000001 9465
  tlsCertPath : Option String := none
  tlsKeyPath : Option String := none
  keys : Option (List AdminKey) := none
  sessionTtlMs : UInt64 := 43200000
  statsHistoryMs : UInt64 := 3600000
deriving DecidableEq, Repr

/-- `Config`, with every section. -/
structure FullConfig extends Config where
  server : ServerConfig := {}
  auth : AuthConfig := {}
  tuning : StorageTuning := {}
  logging : LoggingConfig := {}
  tracing : TracingConfig := {}
  metrics : MetricsConfig := {}
  admin : AdminConfig := {}
deriving BEq, Repr

/-! ### Validation -/

/-- The `#[garde]` attributes of `ServerConfig`. -/
def ServerConfig.rules (s : ServerConfig) : List (String × Bool) :=
  [("db_path", s.dbPath ≠ ""), ("tls_cert_path", s.tlsCertPath.all (· ≠ "")),
    ("tls_key_path", s.tlsKeyPath.all (· ≠ ""))]

/-- The `#[garde]` attributes of the other fields of `StorageConfig`. -/
def StorageTuning.rules (s : StorageTuning) : List (String × Bool) :=
  [("cache_size_bytes", s.cacheSizeBytes.all (1 ≤ ·)),
    ("max_journaling_size_bytes", s.maxJournalingSizeBytes.all (67108864 ≤ ·)),
    ("max_cached_files", s.maxCachedFiles.all (10 ≤ ·)),
    ("worker_threads", s.workerThreads.all (1 ≤ ·))]

/-- The `#[garde]` attributes of `TracingConfig`. -/
def TracingConfig.rules (t : TracingConfig) : List (String × Bool) :=
  [("sample_ratio", !t.sampleRatio.isBelowZero && !t.sampleRatio.isAboveOne)]

/-- A certificate comes with its key. -/
def validateTls (scope : String) : Option String → Option String → Except ConfigError Unit
  | some _, none => .error (.rule (scope ++ ".tls_cert_path is set but " ++ scope ++
      ".tls_key_path is not; set both or neither"))
  | none, some _ => .error (.rule (scope ++ ".tls_key_path is set but " ++ scope ++
      ".tls_cert_path is not; set both or neither"))
  | _, _ => .ok ()

/-- The loop over configured keys, as pairs of a name and a secret; `names` and `secrets` are the
sets of those before. -/
def validateKeys (field title : String) (visible : String → Bool) :
    List String → List String → List (String × String) → Except ConfigError Unit
  | _, _, [] => .ok ()
  | names, secrets, (name, key) :: keys => do
    refuseIf (name = "") (.rule (field ++ "[].name must not be empty"))
    refuseIf (key = "") (.rule (title ++ " " ++ debugStr name ++ " has an empty key"))
    refuseIf (!visible key) (.rule (title ++ " " ++ debugStr name ++ " must be visible ASCII"))
    refuseIf (names.contains name) (.rule (field ++ " has a duplicate name " ++ debugStr name))
    refuseIf (secrets.contains key)
      (.rule (title ++ "s " ++ debugStr name ++ " and another share the same key"))
    validateKeys field title visible (name :: names) (key :: secrets) keys

/-- The check of `admin.keys`. -/
def validateAdminKeys : Option (List AdminKey) → Except ConfigError Unit
  | none => .ok ()
  | some keys => validateKeys "admin.keys" "admin key" (fun _ => true) [] []
      (keys.map fun k => (k.name, k.key))

/-- The check of `auth.api_keys`; these secrets travel in a header. -/
def validateApiKeys : Option (List ApiKeyEntry) → Except ConfigError Unit
  | none => .ok ()
  | some keys => validateKeys "auth.api_keys" "API key"
      (fun key => (asBytes key).all fun b => 0x21 ≤ b && b ≤ 0x7E) [] []
      (keys.map fun k => (k.name, k.key))

/-- `Config::validate`. The sections `auth` and `metrics` have no declared rules. -/
def FullConfig.validate (cfg : FullConfig) : Except ConfigError Unit := do
  gardeValidate "server" cfg.server.rules
  gardeValidate "limits" cfg.limits.rules
  gardeValidate "storage" (cfg.storage.rules ++ cfg.tuning.rules)
  gardeValidate "tracing" cfg.tracing.rules
  validateTls "server" cfg.server.tlsCertPath cfg.server.tlsKeyPath
  refuseIf (cfg.tracing.enabled && cfg.tracing.serviceName = "")
    (.rule "tracing.service_name must not be empty")
  refuseIf (cfg.metrics.enabled && cfg.metrics.otlpEndpoint = "")
    (.rule "metrics.otlp_endpoint must not be empty when enabled")
  refuseIf (cfg.metrics.enabled && cfg.metrics.exportIntervalMs = 0)
    (.rule "metrics.export_interval_ms must be > 0")
  validateTls "admin" cfg.admin.tlsCertPath cfg.admin.tlsKeyPath
  refuseIf (cfg.admin.enabled && !cfg.admin.listenAddr.isLoopback && cfg.admin.keys.isNone)
    (.rule ("admin UI on a non-loopback address requires [admin] keys (set " ++
      "admin.tls_cert_path/tls_key_path for HTTPS, or terminate TLS in front of it)"))
  validateAdminKeys cfg.admin.keys
  validateApiKeys cfg.auth.apiKeys
  refuseIf (!(60000 ≤ cfg.admin.sessionTtlMs && cfg.admin.sessionTtlMs ≤ 31536000000))
    (.rule "admin.session_ttl_ms must be between 60000 (1 minute) and 31536000000 (365 days)")
  refuseIf (!(60000 ≤ cfg.admin.statsHistoryMs && cfg.admin.statsHistoryMs ≤ 21600000))
    (.rule "admin.stats_history_ms must be between 60000 (1 minute) and 21600000 (6 hours)")
  cfg.defaults.validate cfg.limits.maxMessageBytes "limits"
  validateQueues cfg.limits cfg.defaults [] cfg.queues

/-! ### What validation promises -/

/-- The admin keys are told apart by their names, and by their secrets. -/
structure AdminConfig.Valid (admin : AdminConfig) : Prop where
  names : ∀ keys ∈ admin.keys, (keys.map AdminKey.name).Nodup
  secrets : ∀ keys ∈ admin.keys, (keys.map AdminKey.key).Nodup
  sessionTtlMs : 60000 ≤ admin.sessionTtlMs ∧ admin.sessionTtlMs ≤ 31536000000

/-- The loop over the keys, from those before. -/
theorem validateKeys_ok_iff {field title : String} {visible : String → Bool}
    {names secrets : List String} {keys : List (String × String)} :
    validateKeys field title visible names secrets keys = .ok () ↔
      (∀ k ∈ keys, k.1 ≠ "" ∧ k.2 ≠ "" ∧ visible k.2 = true) ∧
        (keys.map Prod.fst).Nodup ∧ (keys.map Prod.snd).Nodup ∧
          ∀ k ∈ keys, k.1 ∉ names ∧ k.2 ∉ secrets := by
  induction keys generalizing names secrets with
  | nil => simp [validateKeys]
  | cons k keys ih =>
    obtain ⟨name, key⟩ := k
    rw [validateKeys, List.forall_mem_cons, List.forall_mem_cons]
    simp only [except_bind_eq_ok_iff, refuseIf_ok_iff, ih, decide_eq_false_iff_not,
      Bool.not_eq_false', List.contains_eq_mem, ne_eq, List.map_cons, List.nodup_cons,
      List.mem_cons, not_or]
    constructor
    · rintro ⟨hname, hkey, hvisible, hnames, hsecrets, hkeys, hnodup, hnodup', hnew⟩
      refine ⟨⟨⟨hname, hkey, hvisible⟩, hkeys⟩, ⟨fun hmem => ?_, hnodup⟩,
        ⟨fun hmem => ?_, hnodup'⟩, ⟨hnames, hsecrets⟩, fun k hk => ?_⟩
      · obtain ⟨k, hk, heq⟩ := List.mem_map.mp hmem
        exact (hnew k hk).1.1 heq
      · obtain ⟨k, hk, heq⟩ := List.mem_map.mp hmem
        exact (hnew k hk).2.1 heq
      · exact ⟨(hnew k hk).1.2, (hnew k hk).2.2⟩
    · rintro ⟨⟨⟨hname, hkey, hvisible⟩, hkeys⟩, ⟨hother, hnodup⟩, ⟨hother', hnodup'⟩,
        ⟨hnames, hsecrets⟩, hnew⟩
      refine ⟨hname, hkey, hvisible, hnames, hsecrets, hkeys, hnodup, hnodup', fun k hk => ?_⟩
      refine ⟨⟨fun heq => hother ?_, (hnew k hk).1⟩, fun heq => hother' ?_, (hnew k hk).2⟩
      · exact heq ▸ List.mem_map_of_mem hk
      · exact heq ▸ List.mem_map_of_mem hk

theorem validateAdminKeys_ok {keys : List AdminKey} (h : validateAdminKeys (some keys) = .ok ()) :
    (keys.map AdminKey.name).Nodup ∧ (keys.map AdminKey.key).Nodup := by
  obtain ⟨-, hnames, hsecrets, -⟩ := validateKeys_ok_iff.mp h
  rw [List.map_map] at hnames hsecrets
  exact ⟨hnames, hsecrets⟩

/-- What a loaded configuration promises. -/
theorem FullConfig.validate_ok {cfg : FullConfig} (h : cfg.validate = .ok ()) :
    cfg.toConfig.Valid ∧ cfg.admin.Valid := by
  rw [validate] at h
  simp only [except_bind_eq_ok_iff] at h
  obtain ⟨-, hlimits, hstorage, -, -, -, -, -, -, -, hadmin, -, httl, -, hdefaults, hqueues⟩ := h
  rw [gardeValidate_ok_iff] at hlimits hstorage
  rw [EffectiveLimits.validate_ok_iff] at hdefaults
  obtain ⟨hqueues, hnodup, -⟩ := (validateQueues_ok_iff cfg.toConfig).mp hqueues
  refine ⟨⟨hlimits, fun rule hrule => ?_, hdefaults, hqueues, hnodup⟩, fun keys hkeys => ?_,
    fun keys hkeys => ?_, ?_⟩
  · exact hstorage rule (List.mem_append_left _ hrule)
  · rw [Option.mem_def.mp hkeys] at hadmin
    exact (validateAdminKeys_ok hadmin).1
  · rw [Option.mem_def.mp hkeys] at hadmin
    exact (validateAdminKeys_ok hadmin).2
  · rw [refuseIf_ok_iff, Bool.not_eq_false', Bool.and_eq_true] at httl
    exact ⟨of_decide_eq_true httl.1, of_decide_eq_true httl.2⟩

/-- The default configuration is valid. -/
example : FullConfig.validate {} = .ok () := by decide

end Sepp
