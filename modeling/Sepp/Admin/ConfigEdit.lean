import Sepp.Config.Sections
import Sepp.Library.Toml

/-!
# Editing the configuration file

`put_config` of `src/admin/routes.rs` and the edits of `src/admin/config_edit.rs`. A request names
paths and values; the handler refuses the paths of the credentials and the paths that the
environment pins, and applies the changes to the parsed file one after the other. A path of two
segments is a key of a section, one of three segments is a field of a declared queue.

The file is the document that it parses to; comments and spacing are left out.

## Main definitions

* `Json`, `tomlValue`.
* `applyChange`, `setSectionValue`, `upsertQueueField`, `applyChanges`.
* `putConfigGuards`.
-/

namespace Sepp

open Toml

/-! ### Values -/

/-- `serde_json::Number`. -/
inductive JsonNumber where
  | posInt (n : UInt64)
  | negInt (n : Int64)
  | float (f : F64)

/-- `serde_json::Value`. -/
inductive Json where
  | null
  | bool (b : Bool)
  | number (n : JsonNumber)
  | string (s : String)
  | array (items : List Json)
  | object (entries : List (String × Json))

/-- `n as f64` from `2^63` on: eleven bits are rounded off, to even on a tie. A carry out of the
mantissa runs into the exponent. -/
def f64OfLarge (n : UInt64) : F64 :=
  let mantissa := n >>> 11
  let rest := n &&& 0x7FF
  let up := 0x400 < rest || (rest = 0x400 && mantissa &&& 1 = 1)
  ⟨0x43E0000000000000 + (if up then mantissa + 1 else mantissa) - 0x10000000000000⟩

/-- A number that is no `i64` is stored as a float. -/
def tomlNumber : JsonNumber → Value
  | .posInt n => if n < 0x8000000000000000 then .integer n.toInt64 else .float (f64OfLarge n).bits
  | .negInt n => .integer n
  | .float f => .float f.bits

/-- `toml_value` of an item of an array. -/
def tomlScalar : Json → Except String Value
  | .string s => .ok (.string s)
  | .bool b => .ok (.boolean b)
  | .number n => .ok (tomlNumber n)
  | .null | .array _ | .object _ => .error "arrays may only contain scalars"

/-- `toml_value`. -/
def tomlValue : Json → Except String Value
  | .string s => .ok (.string s)
  | .bool b => .ok (.boolean b)
  | .number n => .ok (tomlNumber n)
  | .array items => do return .array (← items.mapM tomlScalar)
  | .null | .object _ => .error "value must be a string, number, bool, or array of scalars"

/-! ### Changes -/

/-- `QUEUE_FIELDS`: the fields of a `[[queues]]` entry beside its name. -/
def queueFields : List String :=
  ["max_lease_duration_ms", "default_max_attempts", "max_attempts_ceiling", "default_priority",
    "retry_delay_ms", "retry_backoff", "retry_delay_max_ms", "max_payload_bytes",
    "allowed_encodings", "allowed_job_types", "max_schedule_horizon_ms", "max_custom_entries",
    "max_custom_total_bytes", "max_custom_key_bytes", "dedup_window_ms", "max_queue_depth"]

/-- The item that a value asks for; `null` asks for none. -/
def itemOf : Json → Except String (Option Item)
  | .null => .ok none
  | value => do return some (.value (← tomlValue value))

/-- A key is set, or removed when there is no item. -/
def putItem (key : String) (item : Option Item) (table : Table) : Table :=
  match item with
  | some item => Entries.set key item table
  | none => Entries.remove key table

/-- The table of a section; a missing one is empty. -/
def sectionTable (doc : Table) (section_ : String) : Except String Table :=
  match Entries.get? section_ doc with
  | none => .ok []
  | some item => item.asTable.elim (.error (section_ ++ " is not a table")) .ok

/-- `set_section_value`. Removing a key of something that is not a table does nothing. -/
def setSectionValue (doc : Table) (section_ key : String) (value : Json) : Except String Table := do
  match ← itemOf value with
  | none =>
    match (Entries.get? section_ doc).bind Item.asTable with
    | some table => return Entries.set section_ (.table (Entries.remove key table)) doc
    | none => return doc
  | some item =>
    let table ← sectionTable doc section_
    return Entries.set section_ (.table (Entries.set key item table)) doc

/-- The name of a `[[queues]]` entry. -/
def queueNameOf (table : Table) : Option String := (Entries.get? "name" table).bind Item.asStr

/-- The `[[queues]]` entries; a document without any has an empty list of them. -/
def queueTables (doc : Table) : Except String (List Table) :=
  match Entries.get? "queues" doc with
  | none => .ok []
  | some item => item.asArrayOfTables.elim (.error "queues is not an array of tables") .ok

/-- The entry that is declared for a name. -/
def declaredQueue (name : String) : Table := [("name", .value (.string name))]

/-- `queue_entry`: the entries, the one with the name among them, and its position. -/
def queueEntry (doc : Table) (name : String) : Except String (List Table × ℕ) := do
  let arr ← queueTables doc
  match arr.findIdx? fun table => queueNameOf table = some name with
  | some idx => return (arr, idx)
  | none => return (arr ++ [declaredQueue name], arr.length)

/-- `upsert_queue_field`. The value is converted before the entry is declared. -/
def upsertQueueField (doc : Table) (name field : String) (value : Json) : Except String Table := do
  refuseIf (!queueFields.contains field) ("unknown queue override field " ++ debugStr field)
  let item ← itemOf value
  let (arr, idx) ← queueEntry doc name
  return Entries.set "queues" (.arrayOfTables (arr.modify idx (putItem field item))) doc

/-- `path.split('.')`. -/
def segments (path : String) : List String := (path.toList.splitOn '.').map String.ofList

/-- `apply_change`. -/
def applyChange (doc : Table) (path : String) (value : Json) : Except String Table :=
  match segments path with
  | ["queues", name, field] => upsertQueueField doc name field value
  | [section_, key] => setSectionValue doc section_ key value
  | _ => .error ("unsupported config path " ++ debugStr path)

/-- A change of a request: the dotted path of a setting, and its new value, which `null` removes. -/
structure ConfigChange where
  path : String
  value : Json := .null

/-- The loop over the changes of a request. -/
def applyChanges (doc : Table) (changes : List ConfigChange) : Except String Table :=
  changes.foldlM (fun doc change => applyChange doc change.path change.value) doc

/-! ### The guards of a request -/

/-- The path is `root`, or lies below it. -/
def ConfigChange.within (root : String) (change : ConfigChange) : Bool :=
  change.path = root || (root ++ ".").toList.isPrefixOf change.path.toList

/-- A request is refused for the first of its changes that is not allowed. -/
def refuseFirst (changes : List ConfigChange) (refused : ConfigChange → Bool) (code : String)
    (message : String → String) : Except (String × String) Unit :=
  match changes.find? refused with
  | some change => .error (code, message change.path)
  | none => .ok ()

/-- The guards of `put_config`, with the paths that the environment pins. -/
def putConfigGuards (pinned : List String) (changes : List ConfigChange) :
    Except (String × String) Unit := do
  refuseFirst changes (ConfigChange.within "admin.keys") "admin_keys_immutable" fun path =>
    path ++ " cannot be changed through the admin API; edit sepp.toml on the server"
  refuseFirst changes (ConfigChange.within "auth.api_keys") "api_keys_immutable" fun path =>
    path ++ " can only be changed through the API key endpoints"
  refuseFirst changes (fun change => pinned.contains change.path) "env_pinned" fun path =>
    path ++ " is pinned by an environment variable"

end Sepp
