import Sepp.Admin.ConfigWrite
import Sepp.Library.Realize
import Sepp.Safety.Editing

/-!
# The keys of the workers

A key is added and revoked by a request that writes the configuration file, while calls are admitted
by the keys that the watcher has handed to the interceptor. In between lie the removal of the old
file, the debounced reload, which may have read a text that is long replaced, and the three stores
that a reload writes one after the other.

What an accepted request does to the keys is a fold over the labels of a run. The text that the
file holds, or is about to hold, always loads, and with the keys of the fold. The interceptor has
the keys of an earlier moment, and never goes back behind a moment at which it was up to date: once
a cycle that has read the file is complete, or a handler has seen its change applied with no cycle
under way.

The environment is assumed to leave the keys alone, unless it pins them, and printing an edited
document to write its keys as they are.

## Main definitions

* `readApiKeys`, `ConfigEnv.Lawful`.
* `ConfigRequest.effect`, `keysAfter` — the keys that the requests ask for.
* `Plane.content`, `Plane.Sound` — the invariant.
* `Plane.Settles` — the interceptor catches up.

## Main results

* `policy_of_plane` — the interceptor follows the requests.
* `admission_of_plane` — a revoked key is refused, and an added one is let through.
* `exists_unguarded` — what a reload does that finds no file after it has looked for it.
-/

namespace Sepp

open Toml

/-! ### The keys of a document -/

/-- An entry of `auth.api_keys`, be it an inline table or not. -/
def readEntry (entry : Item) : Option ApiKeyEntry := do
  let name ← (entry.child "name").bind Item.asStr
  let key ← (entry.child "key").bind Item.asStr
  return { name, key }

/-- `auth.api_keys`, which may be missing. -/
def readApiKeys (doc : Table) : Option (Option (List ApiKeyEntry)) :=
  match child doc "auth" "api_keys" with
  | none => some none
  | some (.value (.array items)) => (items.mapM fun v => readEntry (.value v)).map some
  | some (.arrayOfTables tables) => (tables.mapM fun t => readEntry (.table t)).map some
  | some _ => none

theorem mapM_readEntry (entries : List ApiKeyEntry) :
    ((entries.map apiKeyValue).mapM fun v => readEntry (.value v)) = some entries := by
  induction entries with
  | nil => rfl
  | cons entry entries ih =>
    rw [List.map_cons, List.mapM_cons, ih]
    rfl

theorem readApiKeys_of_child {doc doc' : Table}
    (h : child doc' "auth" "api_keys" = child doc "auth" "api_keys") :
    readApiKeys doc' = readApiKeys doc := by
  rw [readApiKeys, readApiKeys, h]

/-- The list that is written is the list that is read. -/
theorem readApiKeys_setApiKeys {doc doc' : Table} {entries : List ApiKeyEntry}
    (h : setApiKeys doc entries = .ok doc') : readApiKeys doc' = some (some entries) := by
  obtain ⟨auth, -, h⟩ := except_bind_eq_ok h
  obtain rfl := Except.ok.inj h
  have hchild : child (Entries.set "auth" (.table (Entries.set "api_keys"
      (.value (.array (entries.map apiKeyValue))) (Entries.remove "api_keys" auth))) doc)
        "auth" "api_keys" = some (.value (.array (entries.map apiKeyValue))) := by
    rw [child, get?_set_self, Option.bind_some, Item.child, get?_set_self]
  rw [readApiKeys, hchild]
  simp only [mapM_readEntry, Option.map_some]

/-- Without the list there are no keys, whether the section stays or not. -/
theorem readApiKeys_removeApiKeys {doc doc' : Table} (h : removeApiKeys doc = some doc') :
    readApiKeys doc' = some none := by
  rw [removeApiKeys] at h
  cases hauth : (Entries.get? "auth" doc).bind Item.asTable with
  | none =>
    simp only [hauth] at h
    cases h
  | some auth =>
    simp only [hauth] at h
    have hchild : child doc' "auth" "api_keys" = none := by
      split_ifs at h
      · obtain rfl := Option.some.inj h
        rw [child, Entries.get?_remove, if_pos rfl, Option.bind_none]
      · obtain rfl := Option.some.inj h
        rw [child, get?_set_self, Option.bind_some, Item.child, Entries.get?_remove, if_pos rfl]
    rw [readApiKeys, hchild]

/-- Queues are declared outside of the section. -/
theorem readApiKeys_set_queues (doc : Table) (item : Item) :
    readApiKeys (Entries.set "queues" item doc) = readApiKeys doc := by
  apply readApiKeys_of_child
  rw [child, child, get?_set_of_ne (by decide)]

theorem readApiKeys_removeQueue {doc doc' : Table} {name : String}
    (h : removeQueue doc name = some doc') : readApiKeys doc' = readApiKeys doc := by
  rw [removeQueue] at h
  cases harr : (Entries.get? "queues" doc).bind Item.asArrayOfTables with
  | none =>
    simp only [harr] at h
    cases h
  | some arr =>
    simp only [harr] at h
    split_ifs at h
    · obtain rfl := Option.some.inj h
      apply readApiKeys_of_child
      rw [child, child, Entries.get?_remove, if_neg (by decide)]
    · obtain rfl := Option.some.inj h
      exact readApiKeys_set_queues doc _

theorem readApiKeys_putQueue {doc doc' : Table} {name : String}
    {overrides : List (String × Json)}
    (h : overrides.foldlM (fun doc (field, value) => upsertQueueField doc name field value) doc =
      .ok doc') : readApiKeys doc' = readApiKeys doc := by
  induction overrides generalizing doc with
  | nil =>
    obtain rfl := Except.ok.inj h
    rfl
  | cons override overrides ih =>
    rw [List.foldlM_cons] at h
    obtain ⟨mid, hfirst, hrest⟩ := except_bind_eq_ok h
    rw [ih hrest]
    apply readApiKeys_of_child
    exact (upsertQueueField_altersOnly hfirst).child_eq (by decide) (by simp)

theorem readApiKeys_applyChanges {doc doc' : Table} {pinned : List String}
    {changes : List ConfigChange} (hguards : putConfigGuards pinned changes = .ok ())
    (h : applyChanges doc changes = .ok doc') : readApiKeys doc' = readApiKeys doc := by
  refine applyChanges_keeps (fun t t' => readApiKeys t' = readApiKeys t) (fun _ => rfl)
    (fun _ _ _ h h' => h'.trans h) (fun change hchange t t' halters => ?_) h
  apply readApiKeys_of_child
  exact halters.child_eq (by decide) (segments_ne_of_guards hguards hchange).2

/-! ### The keys that a request asks for -/

/-- What an accepted request does to the keys. -/
def ConfigRequest.effect (keys : Option (List ApiKeyEntry)) :
    ConfigRequest → Option (List ApiKeyEntry)
  | putConfig .. | putQueue .. | deleteQueue .. => keys
  | addAuthKey _ name key => some (keys.getD [] ++ [{ name, key }])
  | deleteAuthKey _ name => some ((keys.getD []).filter fun e => e.name ≠ name)
  | disableAuth _ => none

/-- What the configuration has to do with the file. -/
structure ConfigEnv.Lawful (env : ConfigEnv) : Prop where
  /-- The keys of a configuration are those of the text. -/
  reads : "auth.api_keys" ∉ env.pinned → ∀ text doc cfg, env.parse text = .ok doc →
    env.extract text = .ok cfg → readApiKeys doc = some cfg.auth.apiKeys
  /-- An edited document is printed with its keys. -/
  prints : "auth.api_keys" ∉ env.pinned → ∀ req text doc doc' cfg, env.parse text = .ok doc →
    ConfigRequest.edit env text doc req = .ok (some doc') → env.extract (env.print doc') = .ok cfg →
    readApiKeys doc' = some cfg.auth.apiKeys
  /-- Pinned keys are the same for every text. -/
  pins : "auth.api_keys" ∈ env.pinned → ∀ text text' cfg cfg', env.extract text = .ok cfg →
    env.extract text' = .ok cfg' → cfg'.auth.apiKeys = cfg.auth.apiKeys

theorem mapError_eq_ok {ε ε' α : Type} {x : Except ε α} {f : ε → ε'} {v : α}
    (h : x.mapError f = .ok v) : x = .ok v := by
  cases x with
  | error e => cases h
  | ok v' => exact congrArg Except.ok (Except.ok.inj h)

theorem parseEntries_eq_ok {env : ConfigEnv} {current : String} {cfg : FullConfig}
    {entries : List ApiKeyEntry} (hload : env.load current = .ok cfg)
    (h : parseEntries env current = .ok entries) : entries = cfg.auth.apiKeys.getD [] := by
  obtain ⟨read, hread, h⟩ := except_bind_eq_ok h
  obtain rfl := Except.ok.inj (hload.symm.trans (mapError_eq_ok hread))
  exact (Except.ok.inj h).symm

/-- The edited document has the keys that the request asks for. -/
theorem ConfigRequest.readApiKeys_edit {env : ConfigEnv} {req : ConfigRequest} {current : String}
    {doc doc' : Table} {cfg : FullConfig} (hload : env.load current = .ok cfg)
    (hkeys : readApiKeys doc = some cfg.auth.apiKeys) (hguards : req.guards env.pinned = .ok ())
    (h : req.edit env current doc = .ok (some doc')) :
    readApiKeys doc' = some (req.effect cfg.auth.apiKeys) := by
  cases req with
  | putConfig etag changes =>
    obtain ⟨edited, hedit, h⟩ := except_bind_eq_ok h
    obtain rfl := Option.some.inj (Except.ok.inj h)
    rw [readApiKeys_applyChanges (mapError_eq_ok hguards) (mapError_eq_ok hedit), hkeys]
    rfl
  | putQueue etag name overrides =>
    obtain ⟨declared, hdeclare, h⟩ := except_bind_eq_ok h
    obtain ⟨edited, hedit, h⟩ := except_bind_eq_ok h
    obtain rfl := Option.some.inj (Except.ok.inj h)
    obtain ⟨⟨arr, idx⟩, -, hdeclare⟩ := except_bind_eq_ok (mapError_eq_ok hdeclare)
    obtain rfl := Except.ok.inj hdeclare
    rw [readApiKeys_putQueue (mapError_eq_ok hedit), readApiKeys_set_queues, hkeys]
    rfl
  | deleteQueue etag name =>
    rw [readApiKeys_removeQueue (Except.ok.inj h), hkeys]
    rfl
  | addAuthKey etag name key =>
    obtain ⟨entries, hentries, h⟩ := except_bind_eq_ok h
    obtain ⟨⟨⟩, -, h⟩ := except_bind_eq_ok h
    obtain ⟨⟨⟩, -, h⟩ := except_bind_eq_ok h
    obtain ⟨edited, hedit, h⟩ := except_bind_eq_ok h
    obtain rfl := Option.some.inj (Except.ok.inj h)
    rw [readApiKeys_setApiKeys (mapError_eq_ok hedit), parseEntries_eq_ok hload hentries]
    rfl
  | deleteAuthKey etag name =>
    obtain ⟨entries, hentries, h⟩ := except_bind_eq_ok h
    obtain ⟨⟨⟩, -, h⟩ := except_bind_eq_ok h
    obtain ⟨edited, hedit, h⟩ := except_bind_eq_ok h
    obtain rfl := Option.some.inj (Except.ok.inj h)
    rw [readApiKeys_setApiKeys (mapError_eq_ok hedit), parseEntries_eq_ok hload hentries]
    rfl
  | disableAuth etag =>
    rw [edit] at h
    cases hremove : removeApiKeys doc with
    | none =>
      simp only [hremove] at h
      cases h
    | some edited =>
      simp only [hremove] at h
      obtain rfl := Option.some.inj (Except.ok.inj h)
      exact readApiKeys_removeApiKeys hremove

/-- A request that begins with pinned keys does nothing to them. -/
theorem ConfigRequest.effect_of_pinned {pinned : List String} {req : ConfigRequest} {etag : String}
    (hpinned : "auth.api_keys" ∈ pinned) (h : req.begin pinned = .ok etag)
    (keys : Option (List ApiKeyEntry)) : req.effect keys = keys := by
  have hrefused : rejectEnvPinnedApiKeys pinned ≠ .ok () := by
    rw [rejectEnvPinnedApiKeys, ne_eq, refuseIf_ok_iff, Bool.not_eq_false, List.contains_iff_mem]
    exact hpinned
  cases req with
  | putConfig etag changes => rfl
  | putQueue etag name overrides => rfl
  | deleteQueue etag name => rfl
  | addAuthKey etag name key =>
    obtain ⟨⟨⟩, -, h⟩ := except_bind_eq_ok h
    obtain ⟨⟨⟩, h, -⟩ := except_bind_eq_ok h
    exact absurd h hrefused
  | deleteAuthKey etag name =>
    obtain ⟨presented, -, h⟩ := except_bind_eq_ok h
    obtain ⟨⟨⟩, h, -⟩ := except_bind_eq_ok h
    exact absurd h hrefused
  | disableAuth etag =>
    obtain ⟨presented, -, h⟩ := except_bind_eq_ok h
    obtain ⟨⟨⟩, h, -⟩ := except_bind_eq_ok h
    exact absurd h hrefused

/-- A request that gets as far as the write: the text loads, with the keys that were asked for. -/
theorem ConfigRequest.prepare_keys {env : ConfigEnv} (hlawful : env.Lawful) {ctx : Option AuthCtx}
    {req : ConfigRequest} {current text : String} {cfg candidate : FullConfig}
    (hload : env.load current = .ok cfg)
    (h : req.prepare env ctx current = .ok (some (text, candidate))) :
    env.load text = .ok candidate ∧ candidate.auth.apiKeys = req.effect cfg.auth.apiKeys := by
  obtain ⟨_, -, h⟩ := except_bind_eq_ok h
  obtain ⟨presented, hbegin, h⟩ := except_bind_eq_ok h
  obtain ⟨⟨⟩, -, h⟩ := except_bind_eq_ok h
  obtain ⟨⟨⟩, hguards, h⟩ := except_bind_eq_ok h
  obtain ⟨doc, hparse, h⟩ := except_bind_eq_ok h
  obtain ⟨edited, hedit, h⟩ := except_bind_eq_ok h
  cases edited with
  | none => cases h
  | some doc' =>
    obtain ⟨read, hread, h⟩ := except_bind_eq_ok h
    obtain ⟨rfl, rfl⟩ := Prod.mk.inj (Option.some.inj (Except.ok.inj h))
    have hread := mapError_eq_ok hread
    refine ⟨hread, ?_⟩
    have hextract := (FullConfig.load_eq_ok_iff.mp hload).1
    have hextract' := (FullConfig.load_eq_ok_iff.mp hread).1
    by_cases hpinned : "auth.api_keys" ∈ env.pinned
    · rw [effect_of_pinned hpinned hbegin]
      exact hlawful.pins hpinned _ _ _ _ hextract hextract'
    · have hparse := mapError_eq_ok hparse
      have hkeys := hlawful.reads hpinned _ _ _ hparse hextract
      have hedited := readApiKeys_edit hload hkeys hguards hedit
      rw [hlawful.prints hpinned _ _ _ _ _ hparse hedit hextract'] at hedited
      exact Option.some.inj hedited

/-! ### The invariant -/

/-- What the keys become by a step: only an accepted request asks for a change. -/
def PlaneLabel.effect (keys : Option (List ApiKeyEntry)) : PlaneLabel → Option (List ApiKeyEntry)
  | request req (.ok true) => req.effect keys
  | _ => keys

/-- The keys that the requests of a run have asked for. -/
def keysAfter (start : Option (List ApiKeyEntry)) (labels : List PlaneLabel) :
    Option (List ApiKeyEntry) :=
  labels.foldl PlaneLabel.effect start

theorem keysAfter_append (start : Option (List ApiKeyEntry)) (labels labels' : List PlaneLabel) :
    keysAfter start (labels ++ labels') = keysAfter (keysAfter start labels) labels' :=
  List.foldl_append

/-- What each label of a run preserves, the run preserves. -/
theorem keysAfter_preserves {P : Option (List ApiKeyEntry) → Prop} {labels : List PlaneLabel}
    {start : Option (List ApiKeyEntry)}
    (hstep : ∀ label ∈ labels, ∀ keys, P keys → P (label.effect keys)) (hstart : P start) :
    P (keysAfter start labels) := by
  induction labels generalizing start with
  | nil => exact hstart
  | cons label labels ih =>
    obtain ⟨hfirst, hrest⟩ := List.forall_mem_cons.mp hstep
    exact ih hrest (hfirst start hstart)

/-- What each accepted request preserves, its label preserves. -/
theorem PlaneLabel.effect_preserves {P : Option (List ApiKeyEntry) → Prop} {label : PlaneLabel}
    (h : ∀ req, label = request req (.ok true) → ∀ keys, P keys → P (req.effect keys))
    (keys : Option (List ApiKeyEntry)) (hkeys : P keys) : P (label.effect keys) := by
  rw [effect.eq_def]
  split
  · exact h _ rfl keys hkeys
  · exact hkeys

/-- The configuration that the watcher has loaded. -/
def Watcher.new? : Watcher → Option FullConfig
  | idle => none
  | loaded new | published new | keyed new => some new

/-- The watcher has loaded keys that it has not handed over yet. -/
def Watcher.pending : Watcher → Bool
  | idle | keyed _ => false
  | loaded _ | published _ => true

/-- What the handler is to write, or has written. -/
def Writer.candidate? : Writer → Option FullConfig
  | idle => none
  | removed _ candidate | waiting candidate => some candidate

/-- The text that is about to be moved in the place of the file. -/
def Writer.text? : Writer → Option String
  | removed text _ => some text
  | idle | waiting _ => none

namespace Plane

/-- The text that the file holds, or is about to hold. -/
def content (plane : Plane) : String := plane.file.getD (plane.writer.text?.getD "")

/-- The keys that the watcher and the interceptor agree on. -/
def agreed (plane : Plane) : Option (List ApiKeyEntry) :=
  match plane.watcher with
  | .keyed new => new.auth.apiKeys
  | _ => plane.running.config.auth.apiKeys

/-- The invariant, with the keys that have been asked for. -/
structure Sound (env : ConfigEnv) (keys : Option (List ApiKeyEntry)) (plane : Plane) : Prop where
  /-- The text loads, with these keys. -/
  text : ∃ now, env.load plane.content = .ok now ∧ now.auth.apiKeys = keys
  /-- The file is missing while it is replaced, and only then. -/
  file : plane.file.isNone = plane.writer.text?.isSome
  written : ∀ new, plane.writer.candidate? = some new → env.load plane.content = .ok new
  policy : plane.running.apiKeys = plane.agreed

variable {env : ConfigEnv} {keys : Option (List ApiKeyEntry)} {plane plane' : Plane}
  {label : PlaneLabel}

theorem content_of_file {text : String} (hfile : plane.file = some text) :
    plane.content = text := by
  rw [content, hfile, Option.getD_some]

theorem sound_boot {text : String} {config : FullConfig} (h : env.load text = .ok config) :
    (boot text config).Sound env config.auth.apiKeys where
  text := ⟨config, h, rfl⟩
  file := rfl
  written new hnew := by cases hnew
  policy := rfl

/-- The file holds its text while it is not replaced. -/
theorem Sound.file_eq (h : plane.Sound env keys) (hwriter : plane.writer.text? = none) :
    plane.file = some plane.content := by
  have hfile := h.file
  rw [hwriter] at hfile
  cases hread : plane.file with
  | none =>
    rw [hread] at hfile
    cases hfile
  | some text => rw [content_of_file hread]

/-- The watcher loads the newest keys, or finds that it has them. -/
theorem Sound.watch (h : plane.Sound env keys) (hwatcher : plane.watcher = .idle)
    (loaded : Except ConfigError FullConfig) : (plane.watch loaded).Sound env keys := by
  cases loaded with
  | error e => exact h
  | ok new =>
    dsimp only [Plane.watch]
    split_ifs
    · exact h
    · refine ⟨h.text, h.file, h.written, ?_⟩
      rw [h.policy, agreed, hwatcher]
      rfl

/-- The new file holds the text that was about to be moved. -/
theorem Sound.rename (h : plane.Sound env keys) {text : String} {new : FullConfig}
    (hwriter : plane.writer = .removed text new) :
    { plane with file := some text, writer := .waiting new : Plane }.Sound env keys := by
  have hfile := h.file
  rw [hwriter] at hfile
  have hcontent : plane.content = text := by
    rw [Plane.content, Option.isNone_iff_eq_none.mp hfile, hwriter]
    rfl
  obtain ⟨now, hnow, hkeys⟩ := h.text
  have hwritten := h.written
  rw [hcontent] at hnow hwritten
  rw [hwriter] at hwritten
  exact ⟨⟨now, hnow, hkeys⟩, rfl, hwritten, h.policy⟩

/-- The handler lets the lock go, and the file stays. -/
theorem Sound.respond (h : plane.Sound env keys) {new : FullConfig}
    (hwriter : plane.writer = .waiting new) :
    { plane with writer := .idle : Plane }.Sound env keys := by
  have hread : plane.file = some plane.content := h.file_eq (by rw [hwriter]; rfl)
  have hcontent : { plane with writer := .idle : Plane }.content = plane.content :=
    content_of_file hread
  refine ⟨?_, ?_, fun new hnew => ?_, h.policy⟩
  · rw [hcontent]
    exact h.text
  · rw [hread]
    rfl
  · cases hnew

/-- A step does to the keys what its label says. -/
theorem Sound.step (hlawful : env.Lawful) (h : plane.Sound env keys)
    (hstep : PlaneStep env plane label plane') : plane'.Sound env (label.effect keys) := by
  have hpolicy := h.policy
  cases hstep with
  | refused ctx hlock hprepare => exact h
  | unwritten ctx hlock hprepare => exact h
  | @accepted ctx req text candidate hlock hprepare =>
    obtain ⟨now, hnow, hkeys⟩ := h.text
    rw [h.file_eq (by rw [hlock]; rfl), Option.getD_some] at hprepare
    obtain ⟨hload, heffect⟩ := ConfigRequest.prepare_keys hlawful hnow hprepare
    refine ⟨⟨candidate, hload, ?_⟩, rfl, fun new hnew => ?_, hpolicy⟩
    · rw [heffect, hkeys]
      rfl
    · obtain rfl := Option.some.inj hnew
      exact hload
  | rename hwriter => exact h.rename hwriter
  | applied hwriter hseen => exact h.respond hwriter
  | timedOut hwriter => exact h.respond hwriter
  | missing hwatcher hmissing => exact h
  | reload hwatcher hread => exact h.watch hwatcher _
  | blindReload hwatcher hmissing => exact h.watch hwatcher _
  | publishRegistry hwatcher =>
    refine ⟨h.text, h.file, h.written, ?_⟩
    rw [agreed, hwatcher] at hpolicy
    exact hpolicy
  | setKeys hwatcher => exact ⟨h.text, h.file, h.written, rfl⟩
  | storeConfig hwatcher =>
    refine ⟨h.text, h.file, h.written, ?_⟩
    rw [agreed, hwatcher] at hpolicy
    exact hpolicy

end Plane

/-! ### Keeping up -/

/-- The keys are those of a moment since `base`, along a run with these labels. -/
def Since (start : Option (List ApiKeyEntry)) (base labels : List PlaneLabel)
    (keys : Option (List ApiKeyEntry)) : Prop :=
  ∃ moment, base <+: moment ∧ moment <+: labels ∧ keys = keysAfter start moment

section Since

variable {start keys : Option (List ApiKeyEntry)} {base labels : List PlaneLabel}

theorem Since.now (h : base <+: labels) : Since start base labels (keysAfter start labels) :=
  ⟨labels, h, List.prefix_refl labels, rfl⟩

theorem Since.later (h : Since start base labels keys) (label : PlaneLabel) :
    Since start base (labels ++ [label]) keys := by
  obtain ⟨moment, hbase, hmoment, hkeys⟩ := h
  exact ⟨moment, hbase, hmoment.trans (List.prefix_append labels [label]), hkeys⟩

end Since

/-- Equal configurations have equal keys. -/
theorem apiKeys_eq_of_beq {a b : FullConfig} (h : (a == b) = true) :
    a.auth.apiKeys = b.auth.apiKeys := by
  simp only [BEq.beq, instBEqFullConfig.beq, Bool.and_eq_true, decide_eq_true_eq] at h
  obtain ⟨-, -, hauth, -⟩ := h
  exact congrArg AuthConfig.apiKeys hauth

theorem Plane.watch_running (plane : Plane) (loaded : Except ConfigError FullConfig) :
    (plane.watch loaded).running = plane.running := by
  cases loaded with
  | error e => rfl
  | ok new =>
    rw [watch]
    split_ifs
    · rfl
    · rfl

/-- The interceptor keeps its keys, or takes those that the watcher has loaded. -/
theorem PlaneStep.policy {env : ConfigEnv} {plane plane' : Plane} {label : PlaneLabel}
    (hstep : PlaneStep env plane label plane') :
    (plane'.running.apiKeys = plane.running.apiKeys ∧
      (plane'.watcher.pending = false → plane.watcher.pending = false)) ∨
    ∃ new, plane.watcher.new? = some new ∧ plane'.running.apiKeys = new.auth.apiKeys := by
  have hidle (hwatcher : plane.watcher = .idle) : plane.watcher.pending = false := by
    rw [hwatcher]
    rfl
  cases hstep with
  | refused ctx hlock hprepare => exact .inl ⟨rfl, id⟩
  | unwritten ctx hlock hprepare => exact .inl ⟨rfl, id⟩
  | accepted ctx hlock hprepare => exact .inl ⟨rfl, id⟩
  | rename hwriter => exact .inl ⟨rfl, id⟩
  | applied hwriter hseen => exact .inl ⟨rfl, id⟩
  | timedOut hwriter => exact .inl ⟨rfl, id⟩
  | missing hwatcher hmissing => exact .inl ⟨rfl, id⟩
  | reload hwatcher hread => exact .inl ⟨by rw [Plane.watch_running], fun _ => hidle hwatcher⟩
  | blindReload hwatcher hmissing =>
    exact .inl ⟨by rw [Plane.watch_running], fun _ => hidle hwatcher⟩
  | publishRegistry hwatcher => exact .inl ⟨rfl, fun hpending => by cases hpending⟩
  | setKeys hwatcher => exact .inr ⟨_, by rw [hwatcher]; rfl, rfl⟩
  | storeConfig hwatcher => exact .inl ⟨rfl, fun _ => by rw [hwatcher]; rfl⟩

namespace Plane

variable {env : ConfigEnv} {plane plane' : Plane} {label : PlaneLabel}
  {keys start : Option (List ApiKeyEntry)} {base labels : List PlaneLabel} {catching : Bool}

/-- What the watcher has loaded is of a moment since `base`, and so are the keys of the interceptor;
while it is catching up, these only count when no load is about to replace them. -/
structure Follows (start : Option (List ApiKeyEntry)) (base labels : List PlaneLabel)
    (catching : Bool) (plane : Plane) : Prop where
  loads : ∀ new, plane.watcher.new? = some new → Since start base labels new.auth.apiKeys
  keys : (catching && plane.watcher.pending) = false →
    Since start base labels plane.running.apiKeys

/-- What the watcher has loaded after a step, it had before, or it is the newest. -/
theorem Sound.loads (h : plane.Sound env keys) (hstep : PlaneStep env plane label plane')
    (hblind : label ≠ .blindReload) {new : FullConfig} (hnew : plane'.watcher.new? = some new) :
    plane.watcher.new? = some new ∨ new.auth.apiKeys = keys := by
  cases hstep with
  | refused ctx hlock hprepare => exact .inl hnew
  | unwritten ctx hlock hprepare => exact .inl hnew
  | accepted ctx hlock hprepare => exact .inl hnew
  | rename hwriter => exact .inl hnew
  | applied hwriter hseen => exact .inl hnew
  | timedOut hwriter => exact .inl hnew
  | missing hwatcher hmissing => exact .inl hnew
  | reload hwatcher hread =>
    obtain ⟨now, hnow, hkeys⟩ := h.text
    rw [content_of_file hread] at hnow
    rw [hnow, Plane.watch] at hnew
    split_ifs at hnew
    · exact .inl hnew
    · obtain rfl := Option.some.inj hnew
      exact .inr hkeys
  | blindReload hwatcher hmissing => exact absurd rfl hblind
  | publishRegistry hwatcher => exact .inl (by rw [hwatcher]; exact hnew)
  | setKeys hwatcher => exact .inl (by rw [hwatcher]; exact hnew)
  | storeConfig hwatcher => cases hnew

/-- A step keeps what the watcher and the interceptor follow. -/
theorem Follows.step (h : plane.Follows start base labels catching)
    (hsound : plane.Sound env (keysAfter start labels)) (hbase : base <+: labels)
    (hstep : PlaneStep env plane label plane') (hblind : label ≠ .blindReload) :
    plane'.Follows start base (labels ++ [label]) catching := by
  refine ⟨fun new hnew => ?_, fun hsettled => ?_⟩
  · rcases hsound.loads hstep hblind hnew with hold | hnewest
    · exact (h.loads new hold).later label
    · rw [hnewest]
      exact (Since.now hbase).later label
  · rcases hstep.policy with ⟨hkept, hpending⟩ | ⟨new, hnew, htaken⟩
    · rw [hkept]
      refine (h.keys ?_).later label
      rw [Bool.and_eq_false_iff] at hsettled ⊢
      exact hsettled.imp_right hpending
    · rw [htaken]
      exact (h.loads new hnew).later label

/-- So does a run, which keeps the invariant as well. -/
theorem Follows.run (hlawful : env.Lawful) (h : plane.Follows start base labels catching)
    (hsound : plane.Sound env (keysAfter start labels)) (hbase : base <+: labels)
    {rest : List PlaneLabel} (hrun : Trace (PlaneStep env) plane rest plane')
    (hblind : .blindReload ∉ rest) :
    plane'.Follows start base (labels ++ rest) catching ∧
      plane'.Sound env (keysAfter start (labels ++ rest)) := by
  induction hrun generalizing labels with
  | nil => exact ⟨by rwa [List.append_nil], by rwa [List.append_nil]⟩
  | @cons plane mid _ label rest hstep _ ih =>
    obtain ⟨hfirst, hrest⟩ := not_or.mp (mt List.mem_cons.mpr hblind)
    have hfollows := h.step hsound hbase hstep (Ne.symm hfirst)
    have hsound' := hsound.step hlawful hstep
    rw [List.append_cons labels label rest]
    refine ih hfollows ?_ (hbase.trans (List.prefix_append labels [label])) hrest
    rw [keysAfter_append]
    exact hsound'

/-- From here on the interceptor is up to date with this moment: a cycle that reads the file now is
complete, or a handler sees its change applied with no cycle under way. -/
inductive Settles (env : ConfigEnv) (plane : Plane) : List PlaneLabel → Plane → Prop
  | cycle {evs rest : List PlaneLabel} {idle plane' : Plane} (hfile : plane.file.isSome)
      (hcycle : Trace (PlaneStep env) plane (.reload :: evs) idle) (hidle : idle.watcher = .idle)
      (hrest : Trace (PlaneStep env) idle rest plane') :
      Settles env plane (.reload :: evs ++ rest) plane'
  | applied {rest : List PlaneLabel} {plane' : Plane} (hidle : plane.watcher = .idle)
      (hrest : Trace (PlaneStep env) plane (.respond true :: rest) plane') :
      Settles env plane (.respond true :: rest) plane'

/-- A cycle begins. -/
theorem Follows.of_reload (hsound : plane.Sound env (keysAfter start labels))
    (hfile : plane.file.isSome) (hstep : PlaneStep env plane .reload plane') :
    plane'.Follows start labels (labels ++ [.reload]) true := by
  cases hstep with
  | missing hwatcher hmissing =>
    rw [hmissing] at hfile
    cases hfile
  | @reload text hwatcher hread =>
    obtain ⟨now, hnow, hkeys⟩ := hsound.text
    have hpolicy := hsound.policy
    rw [content_of_file hread] at hnow
    rw [agreed, hwatcher] at hpolicy
    have hsince : Since start labels (labels ++ [PlaneLabel.reload]) now.auth.apiKeys := by
      rw [hkeys]
      exact (Since.now (List.prefix_refl labels)).later .reload
    rw [hnow, Plane.watch]
    split_ifs with hsame
    · refine ⟨fun new hnew => ?_, fun _ => ?_⟩
      · rw [hwatcher] at hnew
        cases hnew
      · rw [hpolicy]
        dsimp only
        rw [apiKeys_eq_of_beq hsame]
        exact hsince
    · refine ⟨fun new hnew => ?_, fun hsettled => by cases hsettled⟩
      obtain rfl := Option.some.inj hnew
      exact hsince

/-- A change is seen applied. -/
theorem Follows.of_applied (hsound : plane.Sound env (keysAfter start labels))
    (hidle : plane.watcher = .idle) (hstep : PlaneStep env plane (.respond true) plane') :
    plane'.Follows start labels (labels ++ [.respond true]) false := by
  cases hstep with
  | @applied candidate hwriter hseen =>
    obtain ⟨now, hnow, hkeys⟩ := hsound.text
    have hwritten := hsound.written candidate (by rw [hwriter]; rfl)
    obtain rfl := Except.ok.inj (hnow.symm.trans hwritten)
    refine ⟨fun new hnew => ?_, fun _ => ?_⟩
    · rw [show _ = Watcher.idle from hidle] at hnew
      cases hnew
    · have hpolicy := hsound.policy
      rw [agreed, hidle] at hpolicy
      dsimp only at hpolicy ⊢
      rw [hpolicy, apiKeys_eq_of_beq hseen, hkeys]
      exact (Since.now (List.prefix_refl labels)).later (.respond true)

/-- An interceptor that is up to date stays so. -/
theorem Settles.follows (hlawful : env.Lawful) {rest : List PlaneLabel}
    (h : plane.Settles env rest plane') (hsound : plane.Sound env (keysAfter start labels))
    (hblind : .blindReload ∉ rest) :
    plane'.Follows start labels (labels ++ rest) false := by
  cases h with
  | @cycle evs rest idle _ hfile hcycle hidle hrest =>
    obtain ⟨reading, hreload, hevs⟩ := hcycle.split_first
    rw [List.cons_append, List.mem_cons, List.mem_append, not_or, not_or] at hblind
    obtain ⟨-, hblind, hblind'⟩ := hblind
    have hbase : labels <+: labels ++ [PlaneLabel.reload] := List.prefix_append _ _
    have hsound' : reading.Sound env (keysAfter start (labels ++ [PlaneLabel.reload])) := by
      rw [keysAfter_append]
      exact hsound.step hlawful hreload
    obtain ⟨hcaught, hcaughtSound⟩ := (Follows.of_reload hsound hfile hreload).run hlawful hsound'
      hbase hevs hblind
    have hsettled : idle.Follows start labels (labels ++ [.reload] ++ evs) false :=
      ⟨hcaught.loads, fun _ => hcaught.keys (by rw [hidle]; rfl)⟩
    have hrun := (hsettled.run hlawful hcaughtSound (hbase.trans (List.prefix_append _ _)) hrest
      hblind').1
    rwa [List.append_assoc, List.append_assoc] at hrun
  | @applied rest _ hidle hrest =>
    obtain ⟨answered, hrespond, hrest⟩ := hrest.split_first
    rw [List.mem_cons, not_or] at hblind
    have hsound' : answered.Sound env (keysAfter start (labels ++ [PlaneLabel.respond true])) := by
      rw [keysAfter_append]
      exact hsound.step hlawful hrespond
    have hrun := ((Follows.of_applied hsound hidle hrespond).run hlawful hsound'
      (List.prefix_append _ _) hrest hblind.2).1
    rwa [List.append_assoc] at hrun

end Plane

/-! ### The interceptor follows the requests -/

section Runs

variable {env : ConfigEnv} {text : String} {config : FullConfig}

/-- What holds in every state. -/
theorem Plane.sound_of_run (hlawful : env.Lawful) (hboot : env.load text = .ok config)
    {labels : List PlaneLabel} {plane : Plane}
    (hrun : Trace (PlaneStep env) (.boot text config) labels plane) :
    plane.Sound env (keysAfter config.auth.apiKeys labels) := by
  refine hrun.history (P := fun evs plane => plane.Sound env (keysAfter config.auth.apiKeys evs))
    (sound_boot hboot) fun evs e mid plane _ hsound hstep => ?_
  rw [keysAfter_append]
  exact hsound.step hlawful hstep

/-- The interceptor has the keys of some moment. -/
theorem Plane.since_of_run (hlawful : env.Lawful) (hboot : env.load text = .ok config)
    {labels : List PlaneLabel} {plane : Plane}
    (hrun : Trace (PlaneStep env) (.boot text config) labels plane)
    (hblind : .blindReload ∉ labels) :
    Since config.auth.apiKeys [] labels plane.running.apiKeys := by
  have hfollows : (boot text config).Follows config.auth.apiKeys [] [] false :=
    ⟨fun new hnew => (by cases hnew), fun _ => Since.now (List.prefix_refl [])⟩
  exact (hfollows.run hlawful (sound_boot hboot) (List.prefix_refl []) hrun hblind).1.keys rfl

/-- Authentication stays on unless it is disabled. -/
theorem keysAfter_isSome {start : Option (List ApiKeyEntry)} {labels : List PlaneLabel}
    (hstart : start.isSome) (h : ∀ etag, .request (.disableAuth etag) (.ok true) ∉ labels) :
    (keysAfter start labels).isSome := by
  refine keysAfter_preserves (P := fun keys => keys.isSome) (fun label hlabel => ?_) hstart
  refine label.effect_preserves fun req hreq keys hkeys => ?_
  cases req with
  | putConfig etag changes => exact hkeys
  | putQueue etag name overrides => exact hkeys
  | deleteQueue etag name => exact hkeys
  | addAuthKey etag name key => rfl
  | deleteAuthKey etag name => rfl
  | disableAuth etag => exact absurd (hreq ▸ hlabel) (h etag)

/-- Along every run of requests, file operations and reloads: the text of the file loads, with the
keys that the accepted requests have asked for; the interceptor has the keys of some earlier moment,
and never none at all unless authentication was disabled; and once it is up to date with a moment,
it never goes back behind it. -/
theorem policy_of_plane (hlawful : env.Lawful) (hboot : env.load text = .ok config)
    {first : List PlaneLabel} {mid : Plane}
    (hfirst : Trace (PlaneStep env) (.boot text config) first mid) (hblind : .blindReload ∉ first) :
    (∃ now, env.load mid.content = .ok now ∧
      now.auth.apiKeys = keysAfter config.auth.apiKeys first) ∧
    Since config.auth.apiKeys [] first mid.running.apiKeys ∧
    (config.auth.apiKeys.isSome → (∀ etag, .request (.disableAuth etag) (.ok true) ∉ first) →
      mid.running.apiKeys.isSome) ∧
    ∀ rest plane, mid.Settles env rest plane → .blindReload ∉ rest →
      Since config.auth.apiKeys first (first ++ rest) plane.running.apiKeys := by
  have hsound := Plane.sound_of_run hlawful hboot hfirst
  have hsince := Plane.since_of_run hlawful hboot hfirst hblind
  refine ⟨hsound.text, hsince, fun hsome hdisable => ?_, fun rest plane hsettles hblind' => ?_⟩
  · obtain ⟨moment, -, ⟨later, rfl⟩, hkeys⟩ := hsince
    rw [hkeys]
    exact keysAfter_isSome hsome fun etag hmem => hdisable etag (List.mem_append_left _ hmem)
  · exact (hsettles.follows hlawful hsound hblind').keys rfl

/-- Two keys, and the files that have the first of them and both. -/
def pool : ApiKeyEntry := ⟨"pool", "s1"⟩

@[inherit_doc pool]
def spare : ApiKeyEntry := ⟨"spare", "s2"⟩

@[inherit_doc pool]
def oneKey : String := "[auth]\napi_keys = [\n  \x7b name = \"pool\", key = \"s1\" \x7d,\n]\n"

@[inherit_doc pool]
def bothKeys : String :=
  "[auth]\napi_keys = [\n  \x7b name = \"pool\", key = \"s1\" \x7d,\n" ++
    "  \x7b name = \"spare\", key = \"s2\" \x7d,\n]\n"

/-- A document that has the keys and nothing else. -/
def documentWith (keys : List ApiKeyEntry) : Table :=
  [("auth", .table [("api_keys", .value (.array (keys.map apiKeyValue)))])]

/-- What such a document is loaded as. -/
def configWith (keys : List ApiKeyEntry) : FullConfig where
  auth := { apiKeys := some keys }

/-- The environment, as far as these two files go. -/
def twoFiles : ConfigEnv where
  sha256Hex text :=
    if text = bothKeys then "8f806a4d74c1f806b88f327d1a72b51ca7f713b25fb427db7356bd8eb63b8999"
    else "396f312d552bf93a7245472a5f4f242996cee5538091ab6e2070a6246433566b"
  parse text :=
    if text = bothKeys then .ok (documentWith [pool, spare])
    else if text = oneKey then .ok (documentWith [pool])
    else .error "unexpected text"
  print doc :=
    if readApiKeys doc = some (some [pool, spare]) then bothKeys
    else if readApiKeys doc = some (some [pool]) then oneKey
    else ""
  extract text :=
    if text = bothKeys then .ok (configWith [pool, spare])
    else if text = oneKey then .ok (configWith [pool])
    else .error (.rule "unexpected text")
  describe _ := "invalid configuration"
  pinned := []

theorem twoFiles_lawful : twoFiles.Lawful where
  reads _ text doc cfg hparse hextract := by
    dsimp only [twoFiles] at hparse hextract
    split_ifs at hparse hextract
    · cases hparse
      cases hextract
      rfl
    · cases hparse
      cases hextract
      rfl
  prints _ req text doc doc' cfg _ _ hextract := by
    by_cases htwo : readApiKeys doc' = some (some [pool, spare])
    · have hprint : twoFiles.print doc' = bothKeys := if_pos htwo
      rw [hprint] at hextract
      obtain rfl : configWith [pool, spare] = cfg := Except.ok.inj hextract
      exact htwo
    by_cases hone : readApiKeys doc' = some (some [pool])
    · have hprint : twoFiles.print doc' = oneKey := (if_neg htwo).trans (if_pos hone)
      rw [hprint] at hextract
      obtain rfl : configWith [pool] = cfg := Except.ok.inj hextract
      exact hone
    · have hprint : twoFiles.print doc' = "" := (if_neg htwo).trans (if_neg hone)
      rw [hprint] at hextract
      cases hextract
  pins hpinned := by cases hpinned

/-- The second key is revoked. -/
def revoking : List PlaneLabel :=
  [.request (.deleteAuthKey
    (some "8f806a4d74c1f806b88f327d1a72b51ca7f713b25fb427db7356bd8eb63b8999") "spare") (.ok true),
    .rename]

/-- A cycle of the watcher. -/
def reloading : List PlaneLabel := [.reload, .publishRegistry, .setKeys, .storeConfig]

/-- The file is in its place, and the handler waits. -/
def revoked : Plane :=
  { Plane.boot bothKeys (configWith [pool, spare]) with
    file := some oneKey
    writer := .waiting (configWith [pool]) }

/-- The watcher is done. -/
def reloaded : Plane :=
  { Plane.boot oneKey (configWith [pool]) with writer := .waiting (configWith [pool]) }

theorem bothKeys_load : twoFiles.load bothKeys = .ok (configWith [pool, spare]) := by rfl

theorem revoking_run :
    Trace (PlaneStep twoFiles) (.boot bothKeys (configWith [pool, spare])) revoking revoked :=
  .cons (.accepted (some ⟨"ops", .admin⟩) rfl rfl) (.cons (.rename rfl) (.nil revoked))

theorem reloading_settles : revoked.Settles twoFiles reloading reloaded := by
  have hread : revoked.file = some oneKey := rfl
  have hreload : PlaneStep twoFiles revoked .reload
      { revoked with watcher := .loaded (configWith [pool]) } := .reload rfl hread
  have hcycle : Trace (PlaneStep twoFiles) revoked reloading reloaded :=
    .cons hreload (.cons (.publishRegistry rfl) (.cons (.setKeys rfl)
      (.cons (.storeConfig rfl) (.nil reloaded))))
  exact .cycle rfl hcycle rfl (.nil reloaded)

theorem policy_of_plane_revoking :
    Since (some [pool, spare]) revoking (revoking ++ reloading) reloaded.running.apiKeys := by
  have hblind : .blindReload ∉ revoking := by simp [revoking]
  have hpolicy := policy_of_plane twoFiles_lawful bothKeys_load revoking_run hblind
  exact hpolicy.2.2.2 reloading reloaded reloading_settles (by simp [reloading])

/-! ### Calls -/

theorem admitCall_bearer (keys : List ApiKeyEntry) (key : String) :
    admitCall (some keys) (some ("Bearer " ++ key)) =
      if key ∈ keys.map ApiKeyEntry.key then .ok () else .error "invalid API key" := by
  have hprefix : "Bearer ".toList.isPrefixOf ("Bearer " ++ key).toList = true := by
    rw [List.isPrefixOf_iff_prefix, String.toList_append]
    exact List.prefix_append _ _
  have hdrop : String.ofList (("Bearer " ++ key).toList.drop 7) = key := by
    rw [String.toList_append]
    exact String.ofList_toList
  simp only [admitCall, toPolicy, Option.map_some, Option.bind_some, hprefix, if_true, hdrop,
    List.contains_iff_mem]

theorem validateApiKeys_ok {keys : List ApiKeyEntry} (h : validateApiKeys (some keys) = .ok ()) :
    (keys.map ApiKeyEntry.key).Nodup := by
  obtain ⟨-, -, hsecrets, -⟩ := validateKeys_ok_iff.mp h
  rwa [List.map_map] at hsecrets

/-- No two keys of a loaded configuration share a secret. -/
theorem ConfigEnv.nodup_of_load (h : env.load text = .ok config) :
    ((config.auth.apiKeys.getD []).map ApiKeyEntry.key).Nodup := by
  have hvalid := (FullConfig.load_eq_ok_iff.mp h).2
  rw [FullConfig.validate] at hvalid
  simp only [except_bind_eq_ok_iff] at hvalid
  obtain ⟨-, -, -, -, -, -, -, -, -, -, -, hkeys, -⟩ := hvalid
  cases hread : config.auth.apiKeys with
  | none => exact List.nodup_nil
  | some keys =>
    rw [hread] at hkeys
    exact validateApiKeys_ok hkeys

/-- A secret that is gone stays away until it is added again. -/
theorem keysAfter_without {start : Option (List ApiKeyEntry)} {labels : List PlaneLabel}
    {secret : String} (hdisable : ∀ etag, .request (.disableAuth etag) (.ok true) ∉ labels)
    (hadd : ∀ etag name, .request (.addAuthKey etag name secret) (.ok true) ∉ labels)
    (hstart : ∃ keys, start = some keys ∧ secret ∉ keys.map ApiKeyEntry.key) :
    ∃ keys, keysAfter start labels = some keys ∧ secret ∉ keys.map ApiKeyEntry.key := by
  refine keysAfter_preserves (P := fun keys => ∃ list, keys = some list ∧
    secret ∉ list.map ApiKeyEntry.key) (fun label hlabel => ?_) hstart
  refine label.effect_preserves fun req hreq keys hkeys => ?_
  obtain ⟨list, rfl, hgone⟩ := hkeys
  cases req with
  | putConfig etag changes => exact ⟨list, rfl, hgone⟩
  | putQueue etag name overrides => exact ⟨list, rfl, hgone⟩
  | deleteQueue etag name => exact ⟨list, rfl, hgone⟩
  | addAuthKey etag name key =>
    refine ⟨_, rfl, ?_⟩
    rw [Option.getD_some, List.map_append, List.mem_append, not_or]
    refine ⟨hgone, fun hmem => ?_⟩
    obtain rfl := List.mem_singleton.mp hmem
    exact hadd etag name (hreq ▸ hlabel)
  | deleteAuthKey etag name =>
    refine ⟨_, rfl, fun hmem => hgone ?_⟩
    obtain ⟨e, he, hsame⟩ := List.mem_map.mp hmem
    exact hsame ▸ List.mem_map_of_mem (List.mem_filter.mp he).1
  | disableAuth etag => exact absurd (hreq ▸ hlabel) (hdisable etag)

/-- An entry that is there stays until a key of its name is revoked. -/
theorem keysAfter_with {start : Option (List ApiKeyEntry)} {labels : List PlaneLabel}
    {entry : ApiKeyEntry} (hdisable : ∀ etag, .request (.disableAuth etag) (.ok true) ∉ labels)
    (hdelete : ∀ etag, .request (.deleteAuthKey etag entry.name) (.ok true) ∉ labels)
    (hstart : ∃ keys, start = some keys ∧ entry ∈ keys) :
    ∃ keys, keysAfter start labels = some keys ∧ entry ∈ keys := by
  refine keysAfter_preserves (P := fun keys => ∃ list, keys = some list ∧ entry ∈ list)
    (fun label hlabel => ?_) hstart
  refine label.effect_preserves fun req hreq keys hkeys => ?_
  obtain ⟨list, rfl, hmem⟩ := hkeys
  cases req with
  | putConfig etag changes => exact ⟨list, rfl, hmem⟩
  | putQueue etag name overrides => exact ⟨list, rfl, hmem⟩
  | deleteQueue etag name => exact ⟨list, rfl, hmem⟩
  | addAuthKey etag name key => exact ⟨_, rfl, List.mem_append_left _ hmem⟩
  | deleteAuthKey etag name =>
    refine ⟨_, rfl, List.mem_filter.mpr ⟨hmem, decide_eq_true fun hname => ?_⟩⟩
    exact hdelete etag (hname ▸ hreq ▸ hlabel)
  | disableAuth etag => exact absurd (hreq ▸ hlabel) (hdisable etag)

/-- The keys of a moment since a request was accepted. -/
theorem Since.of_request {start keys : Option (List ApiKeyEntry)} {req : ConfigRequest}
    {before after rest : List PlaneLabel}
    (h : Since start (before ++ .request req (.ok true) :: after)
      (before ++ .request req (.ok true) :: after ++ rest) keys) :
    ∃ labels, labels <+: after ++ rest ∧
      keys = keysAfter (req.effect (keysAfter start before)) labels := by
  obtain ⟨moment, ⟨later, rfl⟩, hmoment, hkeys⟩ := h
  refine ⟨after ++ later, ?_, ?_⟩
  · rw [List.append_assoc, List.append_assoc, List.prefix_append_right_inj] at hmoment
    exact (List.cons_prefix_cons.mp hmoment).2
  · rw [hkeys, List.append_assoc, keysAfter_append]
    rfl

/-- Once the interceptor is up to date with a moment after a key was revoked, no call is let through
by its secret, and once it is up to date with a moment after a key was added, every call with it is;
until the secret is added again or the key is revoked, and as long as authentication is on. -/
theorem admission_of_plane (hlawful : env.Lawful) (hboot : env.load text = .ok config)
    {before after rest : List PlaneLabel} {req : ConfigRequest} {mid plane : Plane}
    (hmid : Trace (PlaneStep env) (.boot text config)
      (before ++ .request req (.ok true) :: after) mid)
    (hsettles : mid.Settles env rest plane) (hblind : .blindReload ∉ rest)
    (hdisable : ∀ etag, .request (.disableAuth etag) (.ok true) ∉ after ++ rest) :
    (∀ etag name, req = .deleteAuthKey etag name →
      ∀ entry ∈ (keysAfter config.auth.apiKeys before).getD [], entry.name = name →
      (∀ etag' name', .request (.addAuthKey etag' name' entry.key) (.ok true) ∉ after ++ rest) →
      admitCall plane.running.apiKeys (some ("Bearer " ++ entry.key)) =
        .error "invalid API key") ∧
    ∀ etag name key, req = .addAuthKey etag name key →
      (∀ etag', .request (.deleteAuthKey etag' name) (.ok true) ∉ after ++ rest) →
      admitCall plane.running.apiKeys (some ("Bearer " ++ key)) = .ok () := by
  have hsound := Plane.sound_of_run hlawful hboot hmid
  obtain ⟨labels, hlabels, hkeys⟩ :=
    Since.of_request ((hsettles.follows hlawful hsound hblind).keys rfl)
  have hsubset := hlabels.subset
  constructor
  · rintro etag name rfl entry hentry rfl hadd
    -- the keys before the request are those of a text that loads, so no other entry has the secret
    obtain ⟨start, hbefore, -⟩ := hmid.split
    obtain ⟨now, hnow, hnowKeys⟩ := (Plane.sound_of_run hlawful hboot hbefore).text
    have hnodup := ConfigEnv.nodup_of_load hnow
    rw [hnowKeys] at hnodup
    have hgone : entry.key ∉ (((keysAfter config.auth.apiKeys before).getD []).filter
        fun e => e.name ≠ entry.name).map ApiKeyEntry.key := by
      intro hmem
      obtain ⟨other, hother, hsame⟩ := List.mem_map.mp hmem
      obtain ⟨hother, hname⟩ := List.mem_filter.mp hother
      rw [List.inj_on_of_nodup_map hnodup hother hentry hsame] at hname
      exact of_decide_eq_true hname rfl
    obtain ⟨keys, hafter, hgone⟩ := keysAfter_without
      (fun etag hmem => hdisable etag (hsubset hmem))
      (fun etag name hmem => hadd etag name (hsubset hmem)) ⟨_, rfl, hgone⟩
    rw [hkeys, ConfigRequest.effect, hafter, admitCall_bearer, if_neg hgone]
  · rintro etag name key rfl hdelete
    obtain ⟨keys, hafter, hmem⟩ := @keysAfter_with _ labels ⟨name, key⟩
      (fun etag hmem => hdisable etag (hsubset hmem))
      (fun etag hmem => hdelete etag (hsubset hmem))
      ⟨_, rfl, List.mem_append_right _ (List.mem_singleton.mpr rfl)⟩
    rw [hkeys, ConfigRequest.effect, hafter, admitCall_bearer, if_pos (List.mem_map_of_mem hmem)]

theorem admission_of_plane_revoking :
    admitCall reloaded.running.apiKeys (some ("Bearer " ++ "s2")) = .error "invalid API key" := by
  have hrun : Trace (PlaneStep twoFiles) (.boot bothKeys (configWith [pool, spare]))
      ([] ++ revoking) revoked := revoking_run
  have hadmission := admission_of_plane twoFiles_lawful bothKeys_load hrun reloading_settles
    (by simp [reloading]) (by simp [reloading])
  exact hadmission.1 _ "spare" rfl spare (by simp [configWith, keysAfter]) rfl
    (by simp [reloading])

end Runs

/-! ### The gap between looking for the file and reading it -/

/-- Why a reload must not look for the file before it is removed and read it after: it would load
what a missing file stands for, and with the defaults authentication is off. -/
theorem exists_unguarded {env : ConfigEnv} {plane : Plane} {config : FullConfig}
    (hwatcher : plane.watcher = .idle) (hfile : plane.file = none)
    (hload : env.load "" = .ok config) (hkeys : config.auth.apiKeys = none)
    (hother : (plane.running.config == config) = false) :
    ∃ plane', Trace (PlaneStep env) plane
        [.blindReload, .publishRegistry, .setKeys, .storeConfig] plane' ∧
      ∀ authorization, admitCall plane'.running.apiKeys authorization = .ok () := by
  have hwatch : plane.watch (env.load "") = { plane with watcher := .loaded config } := by
    rw [hload, Plane.watch, hother]
    rfl
  have hfirst : PlaneStep env plane .blindReload { plane with watcher := .loaded config } :=
    hwatch ▸ .blindReload hwatcher hfile
  refine ⟨_, .cons hfirst (.cons (.publishRegistry rfl) (.cons (.setKeys rfl)
    (.cons (.storeConfig rfl) (.nil _)))), fun authorization => ?_⟩
  dsimp only
  rw [hkeys]
  rfl

end Sepp
