import Sepp.Admin.Auth
import Sepp.Admin.ConfigEdit

/-!
# Writing the configuration file

The requests of `src/admin/routes.rs` that write the configuration file: `put_config`, `put_queue`,
the end of `delete_queue`, `add_auth_key`, `delete_auth_key` and `disable_auth`; with the edits of
`src/admin/config_edit.rs` that they make, and the role that `src/admin/authz.rs` asks for. A
request holds a lock from before it reads the file until it is answered. It names the text of the
file that it was made for by an etag, edits the document, checks that the result is a valid
configuration, removes the old file, moves the new one in its place, and waits until the watcher has
taken it over.
The watcher of `src/config_watch.rs` reads the file at any time, also while it is missing, and
publishes a new configuration in three stores. The interceptor of `src/auth.rs` admits a call by the
keys that were stored last.

The hash, `toml_edit`, the extraction of a configuration from a text and the environment, and the
wording of its errors are a `ConfigEnv`. A file operation that fails, and an edit by hand, are left
out, and so is the part of `delete_queue` that drains the queue.

## Main definitions

* `ensureQueue`, `removeQueue`, `setApiKeys`, `removeApiKeys` — edits of the document.
* `ConfigRequest`, `ConfigRequest.prepare` — a request, up to the write.
* `Plane`, `PlaneStep` — the file, the watcher and the handlers.
* `admitCall` — the interceptor.
-/

namespace Sepp

open Toml

/-! ### Edits -/

/-- `ensure_queue`. -/
def ensureQueue (doc : Table) (name : String) : Except String Table := do
  let (arr, _) ← queueEntry doc name
  return Entries.set "queues" (.arrayOfTables arr) doc

/-- `remove_queue`, with the document if an entry was removed. -/
def removeQueue (doc : Table) (name : String) : Option Table :=
  match (Entries.get? "queues" doc).bind Item.asArrayOfTables with
  | none => none
  | some arr =>
    let kept := arr.filter fun table => queueNameOf table ≠ some name
    if kept.length = arr.length then none
    else if kept.isEmpty then some (Entries.remove "queues" doc)
    else some (Entries.set "queues" (.arrayOfTables kept) doc)

/-- The value that `set_api_keys` writes for an entry. -/
def apiKeyValue (entry : ApiKeyEntry) : Value :=
  .inlineTable [("name", .string entry.name), ("key", .string entry.key)]

/-- `set_api_keys`. -/
def setApiKeys (doc : Table) (entries : List ApiKeyEntry) : Except String Table := do
  let auth ← sectionTable doc "auth"
  let auth := Entries.remove "api_keys" auth
  let auth := Entries.set "api_keys" (.value (.array (entries.map apiKeyValue))) auth
  return Entries.set "auth" (.table auth) doc

/-- `remove_api_keys`, with the document if there was a list. -/
def removeApiKeys (doc : Table) : Option Table :=
  match (Entries.get? "auth" doc).bind Item.asTable with
  | none => none
  | some auth =>
    if (Entries.get? "api_keys" auth).isNone then none
    else
      let auth := Entries.remove "api_keys" auth
      if auth.isEmpty then some (Entries.remove "auth" doc)
      else some (Entries.set "auth" (.table auth) doc)

/-! ### Requests -/

/-- `ApiError`, with any status. -/
structure Refusal where
  status : ℕ
  code : String
  error : String
deriving DecidableEq, Repr

/-- `ApiError::bad_request`. -/
def Refusal.badRequest (code error : String) : Refusal := ⟨400, code, error⟩

/-- `ApiError::not_found`. -/
def Refusal.notFound (error : String) : Refusal := ⟨404, "not_found", error⟩

/-- What the handlers use that is not in the repository. -/
structure ConfigEnv where
  /-- `sha256_hex` of the bytes of a text. -/
  sha256Hex : String → String
  /-- `str::parse` of `toml_edit`, with the message of its error. -/
  parse : String → Except String Table
  /-- `DocumentMut::to_string`. -/
  print : Table → String
  /-- What `figment` makes of the defaults, a text and the environment. -/
  extract : String → Except ConfigError FullConfig
  /-- The wording of a configuration error. -/
  describe : ConfigError → String
  /-- `env_pinned`. -/
  pinned : List String

/-- `Config::load` of a file with the text, and `Config::from_toml_str`. -/
def ConfigEnv.load (env : ConfigEnv) (text : String) : Except ConfigError FullConfig :=
  FullConfig.load (env.extract text)

/-- A request that writes the file. An etag in a header may be missing. -/
inductive ConfigRequest where
  | putConfig (etag : String) (changes : List ConfigChange)
  | putQueue (etag name : String) (overrides : List (String × Json))
  | deleteQueue (etag : Option String) (name : String)
  | addAuthKey (etag name key : String)
  | deleteAuthKey (etag : Option String) (name : String)
  | disableAuth (etag : Option String)

/-- `Role` in its order. -/
def Role.rank : Role → ℕ
  | viewer => 0
  | operator => 1
  | admin => 2

/-- The name of a role. -/
def Role.display : Role → String
  | viewer => "viewer"
  | operator => "operator"
  | admin => "admin"

/-- `extract` of `src/admin/authz.rs`. -/
def extractRole (ctx : Option AuthCtx) (required : Role) : Except Refusal AuthCtx :=
  match ctx with
  | none => .error ⟨401, "unauthorized", "authentication required"⟩
  | some ctx =>
    if ctx.role.rank < required.rank then
      .error ⟨403, "forbidden", "this action requires the " ++ required.display ++ " role"⟩
    else .ok ctx

/-- The header that names the etag. -/
def ifMatch (etag : Option String) : Except Refusal String :=
  match etag with
  | some etag => .ok etag
  | none => .error (.badRequest "if_match_required"
      "If-Match header with the config etag is required")

/-- `reject_env_pinned_api_keys`. -/
def rejectEnvPinnedApiKeys (pinned : List String) : Except Refusal Unit :=
  refuseIf (pinned.contains "auth.api_keys")
    (.badRequest "env_pinned" "auth.api_keys is pinned by an environment variable")

/-- The checks of `add_auth_key` on its body. -/
def checkAuthKeyBody (name key : String) : Except Refusal Unit := do
  refuseIf (name = "" || key = "")
    (.badRequest "invalid_argument" "name and key must not be empty")
  refuseIf (name = "." || name = ".." || name.toList.contains '/' || name.toList.any isControl)
    (.badRequest "invalid_argument"
      "name must not be \".\" or \"..\" or contain '/' or control characters")
  refuseIf (!(asBytes key).all fun b => 0x21 ≤ b && b ≤ 0x7E)
    (.badRequest "invalid_argument" "key must be visible ASCII")

/-- What a handler checks before it takes the lock, with the etag it was given. -/
def ConfigRequest.begin (pinned : List String) : ConfigRequest → Except Refusal String
  | putConfig etag _ | putQueue etag _ _ => .ok etag
  | deleteQueue etag _ => ifMatch etag
  | addAuthKey etag name key => do
    checkAuthKeyBody name key
    rejectEnvPinnedApiKeys pinned
    return etag
  | deleteAuthKey etag _ | disableAuth etag => do
    let etag ← ifMatch etag
    rejectEnvPinnedApiKeys pinned
    return etag

/-- `check_etag`. -/
def checkEtag (env : ConfigEnv) (current presented : String) : Except Refusal Unit :=
  refuseIf (env.sha256Hex current ≠ presented)
    ⟨412, "etag_mismatch", "config file changed; reload and retry"⟩

/-- `parse_doc`. -/
def parseDoc (env : ConfigEnv) (current : String) : Except Refusal Table :=
  (env.parse current).mapError fun message =>
    ⟨422, "invalid", "config file is not valid TOML: " ++ message⟩

/-- `Config::from_toml_str` in a handler. -/
def fromTomlStr (env : ConfigEnv) (text : String) : Except Refusal FullConfig :=
  (env.load text).mapError fun e => ⟨422, "invalid", env.describe e⟩

/-- `parse_entries`. -/
def parseEntries (env : ConfigEnv) (current : String) : Except Refusal (List ApiKeyEntry) := do
  return (← fromTomlStr env current).auth.apiKeys.getD []

/-- An edit that is refused. -/
def invalidChange {α : Type} (edit : Except String α) : Except Refusal α :=
  edit.mapError (.badRequest "invalid_change")

/-- What a handler does to the document; nothing, if there is nothing to write. -/
def ConfigRequest.edit (env : ConfigEnv) (current : String) (doc : Table) :
    ConfigRequest → Except Refusal (Option Table)
  | putConfig _ changes => do return some (← invalidChange (applyChanges doc changes))
  | putQueue _ name overrides => do
    let doc ← invalidChange (ensureQueue doc name)
    return some (← invalidChange (overrides.foldlM
      (fun doc (field, value) => upsertQueueField doc name field value) doc))
  | deleteQueue _ name => .ok (removeQueue doc name)
  | addAuthKey _ name key => do
    let entries ← parseEntries env current
    refuseIf (entries.any (·.name = name))
      (.badRequest "invalid_change" ("an API key named " ++ debugStr name ++ " already exists"))
    refuseIf (entries.any (·.key = key))
      (.badRequest "invalid_change" "another API key already uses this key")
    return some (← invalidChange (setApiKeys doc (entries ++ [{ name, key }])))
  | deleteAuthKey _ name => do
    let entries ← parseEntries env current
    let kept := entries.filter fun e => e.name ≠ name
    refuseIf (kept.length = entries.length) (.notFound ("no API key named " ++ debugStr name))
    -- the last key leaves an empty list, which denies everyone
    return some (← invalidChange (setApiKeys doc kept))
  | disableAuth _ =>
    match removeApiKeys doc with
    | some doc => .ok (some doc)
    | none => .error (.notFound "gRPC auth is already off")

/-- The guards of `put_config`, which come before the file is parsed. -/
def ConfigRequest.guards (pinned : List String) : ConfigRequest → Except Refusal Unit
  | putConfig _ changes =>
    (putConfigGuards pinned changes).mapError fun (code, error) => .badRequest code error
  | _ => .ok ()

/-- A request up to the write: the text that is to be written, and its configuration. -/
def ConfigRequest.prepare (env : ConfigEnv) (ctx : Option AuthCtx) (req : ConfigRequest)
    (current : String) : Except Refusal (Option (String × FullConfig)) := do
  let _ ← extractRole ctx .admin
  let presented ← req.begin env.pinned
  checkEtag env current presented
  req.guards env.pinned
  let doc ← parseDoc env current
  match ← req.edit env current doc with
  | none => return none
  | some doc =>
    let candidate ← fromTomlStr env (env.print doc)
    return some (env.print doc, candidate)

/-! ### The file, the watcher and the handlers -/

/-- Where the watcher is with a configuration that it has loaded: about to publish the registry, the
keys, or the configuration itself. -/
inductive Watcher where
  | idle
  | loaded (new : FullConfig)
  | published (new : FullConfig)
  | keyed (new : FullConfig)

/-- Where the handler is that holds the lock: it has removed the file and is about to move the new
one in its place, or it waits for the watcher. -/
inductive Writer where
  | idle
  | removed (text : String) (candidate : FullConfig)
  | waiting (candidate : FullConfig)

/-- The configuration file and what runs of it. -/
structure Plane where
  file : Option String
  running : ReloadState
  watcher : Watcher := .idle
  writer : Writer := .idle

/-- The server has booted from a file with the text. -/
def Plane.boot (text : String) (config : FullConfig) : Plane where
  file := some text
  running := .boot config

/-- The steps of the handler of a request, and of the watcher, which publishes what it has loaded in
three steps. -/
inductive PlaneLabel where
  /-- A request, up to the removal of the file. -/
  | request (req : ConfigRequest) (result : Except Refusal Bool)
  /-- The new file is moved in its place. -/
  | rename
  /-- The request is answered: the change is applied, or the handler has given up waiting. -/
  | respond (applied : Bool)
  /-- The watcher loads the file. -/
  | reload
  /-- The watcher loads a file that is gone since it has looked for it. -/
  | blindReload
  | publishRegistry
  | setKeys
  | storeConfig

/-- What the watcher does with what it has loaded. -/
def Plane.watch (plane : Plane) (loaded : Except ConfigError FullConfig) : Plane :=
  match loaded with
  | .error _ => plane
  | .ok new => if plane.running.config == new then plane else { plane with watcher := .loaded new }

/-- One step. -/
inductive PlaneStep (env : ConfigEnv) : Plane → PlaneLabel → Plane → Prop
  | refused {plane : Plane} (ctx : Option AuthCtx) {req : ConfigRequest} {refusal : Refusal}
      (hlock : plane.writer = .idle)
      (hprepare : req.prepare env ctx (plane.file.getD "") = .error refusal) :
      PlaneStep env plane (.request req (.error refusal)) plane
  | unwritten {plane : Plane} (ctx : Option AuthCtx) {req : ConfigRequest}
      (hlock : plane.writer = .idle)
      (hprepare : req.prepare env ctx (plane.file.getD "") = .ok none) :
      PlaneStep env plane (.request req (.ok false)) plane
  | accepted {plane : Plane} (ctx : Option AuthCtx) {req : ConfigRequest} {text : String}
      {candidate : FullConfig} (hlock : plane.writer = .idle)
      (hprepare : req.prepare env ctx (plane.file.getD "") = .ok (some (text, candidate))) :
      PlaneStep env plane (.request req (.ok true))
        { plane with file := none, writer := .removed text candidate }
  | rename {plane : Plane} {text : String} {candidate : FullConfig}
      (hwriter : plane.writer = .removed text candidate) :
      PlaneStep env plane .rename { plane with file := some text, writer := .waiting candidate }
  | applied {plane : Plane} {candidate : FullConfig} (hwriter : plane.writer = .waiting candidate)
      (hseen : plane.running.config == candidate) :
      PlaneStep env plane (.respond true) { plane with writer := .idle }
  | timedOut {plane : Plane} {candidate : FullConfig}
      (hwriter : plane.writer = .waiting candidate) :
      PlaneStep env plane (.respond false) { plane with writer := .idle }
  | missing {plane : Plane} (hwatcher : plane.watcher = .idle) (hfile : plane.file = none) :
      PlaneStep env plane .reload plane
  | reload {plane : Plane} {text : String} (hwatcher : plane.watcher = .idle)
      (hfile : plane.file = some text) : PlaneStep env plane .reload (plane.watch (env.load text))
  | blindReload {plane : Plane} (hwatcher : plane.watcher = .idle) (hfile : plane.file = none) :
      PlaneStep env plane .blindReload (plane.watch (env.load ""))
  | publishRegistry {plane : Plane} {new : FullConfig} (hwatcher : plane.watcher = .loaded new) :
      PlaneStep env plane .publishRegistry
        { plane with
          running := { plane.running with registry := QueueRegistry.fromConfig new.toConfig }
          watcher := .published new }
  | setKeys {plane : Plane} {new : FullConfig} (hwatcher : plane.watcher = .published new) :
      PlaneStep env plane .setKeys
        { plane with
          running := { plane.running with apiKeys := new.auth.apiKeys }
          watcher := .keyed new }
  | storeConfig {plane : Plane} {new : FullConfig} (hwatcher : plane.watcher = .keyed new) :
      PlaneStep env plane .storeConfig
        { plane with running := { plane.running with config := new }, watcher := .idle }

/-! ### Calls -/

/-- `to_policy`: the secrets that are admitted. -/
def toPolicy (apiKeys : Option (List ApiKeyEntry)) : Option (List String) :=
  apiKeys.map fun keys => keys.map ApiKeyEntry.key

/-- `ApiKeyInterceptor::call`, with the `authorization` of the request. The error is the message of
an `unauthenticated` status. -/
def admitCall (apiKeys : Option (List ApiKeyEntry)) (authorization : Option String) :
    Except String Unit :=
  match toPolicy apiKeys with
  | none => .ok ()
  | some allowed =>
    let presented := authorization.bind fun value =>
      if "Bearer ".toList.isPrefixOf value.toList then some (String.ofList (value.toList.drop 7))
      else none
    match presented with
    | some key => if allowed.contains key then .ok () else .error "invalid API key"
    | none => .error
        "missing API key; expected an \x60authorization: Bearer <key>\x60 header"

end Sepp
