import Sepp.Admin.ConfigEdit

/-!
# What an edit of the configuration can reach

A change of a request alters the one key that its path names, or the one field of the one declared
queue, and declares the queue if it has to. The guards compare whole paths while the edit takes the
path apart; since joining the segments gives the path back, no path that passes the guards reaches
the credentials, whatever the document looks like.

## Main definitions

* `queueList`, `queueNames`.
* `AltersOnly` — what a change leaves alone.

## Main results

* `applyChange_altersOnly` — one change.
* `credentials_unchanged` — a request.
-/

namespace Sepp

open Toml

/-! ### Paths -/

theorem intercalate_segments (path : String) :
    List.intercalate ['.'] ((segments path).map String.toList) = path.toList := by
  rw [segments, List.map_map]
  have hid : (String.toList ∘ String.ofList : List Char → List Char) = id := by
    funext cs
    exact String.toList_ofList
  rw [hid, List.map_id, List.intercalate_splitOn]

/-- A path is given by its segments. -/
theorem segments_injective : Function.Injective segments := by
  intro path path' h
  rw [← String.toList_inj, ← intercalate_segments path, ← intercalate_segments path', h]

/-! ### What a change leaves alone -/

/-- The `[[queues]]` entries of a document that has some. -/
def queueList (doc : Table) : List Table :=
  ((Entries.get? "queues" doc).bind Item.asArrayOfTables).getD []

/-- The names of the declared queues. -/
def queueNames (doc : Table) : List String := (queueList doc).filterMap queueNameOf

/-- A change along these segments leads from `doc` to `doc'` and alters nothing beside what it
addresses: a key of a section, which is made if it is missing, or a field of the first entry with
the name, or of an entry that is declared for it. -/
inductive AltersOnly (doc doc' : Table) : List String → Prop
  | nothing {path : List String} (h : doc' = doc) : AltersOnly doc doc' path
  | sectionKey {section_ key : String} {table table' : Table}
      (hother : ∀ s ≠ section_, Entries.get? s doc' = Entries.get? s doc)
      (hbefore : Entries.get? section_ doc = some (.table table) ∨
        Entries.get? section_ doc = none ∧ table = [])
      (hafter : Entries.get? section_ doc' = some (.table table'))
      (hkeys : ∀ k ≠ key, Entries.get? k table' = Entries.get? k table) :
      AltersOnly doc doc' [section_, key]
  | queueField {name field : String} {before after : List Table} {table table' : Table}
      (hother : ∀ s ≠ "queues", Entries.get? s doc' = Entries.get? s doc)
      (hqueues : queueList doc = before ++ table :: after)
      (hname : queueNameOf table = some name)
      (hfirst : ∀ t ∈ before, queueNameOf t ≠ some name)
      (hqueues' : queueList doc' = before ++ table' :: after)
      (hfield : field ≠ "name")
      (hfields : ∀ f ≠ field, Entries.get? f table' = Entries.get? f table) :
      AltersOnly doc doc' ["queues", name, field]
  | queueDeclared {name field : String} {table' : Table}
      (hother : ∀ s ≠ "queues", Entries.get? s doc' = Entries.get? s doc)
      (habsent : ∀ t ∈ queueList doc, queueNameOf t ≠ some name)
      (hqueues' : queueList doc' = queueList doc ++ [table'])
      (hname : queueNameOf table' = some name)
      (hfields : ∀ f ≠ field, f ≠ "name" → Entries.get? f table' = none) :
      AltersOnly doc doc' ["queues", name, field]

theorem get?_set_self (doc : Table) (key : String) (item : Item) :
    Entries.get? key (Entries.set key item doc) = some item := by
  rw [Entries.get?_set, if_pos rfl]

theorem get?_set_of_ne {doc : Table} {key s : String} {item : Item} (h : s ≠ key) :
    Entries.get? s (Entries.set key item doc) = Entries.get? s doc := by
  rw [Entries.get?_set, if_neg h]

theorem get?_putItem_of_ne {table : Table} {key k : String} {item : Option Item} (h : k ≠ key) :
    Entries.get? k (putItem key item table) = Entries.get? k table := by
  cases item with
  | none => rw [putItem, Entries.get?_remove, if_neg h]
  | some item => rw [putItem, get?_set_of_ne h]

theorem asTable_eq_some {item : Item} {table : Table} (h : item.asTable = some table) :
    item = .table table := by
  cases item with
  | table entries => exact congrArg Item.table (Option.some.inj h)
  | value v => cases h
  | arrayOfTables tables => cases h

theorem sectionTable_eq_ok {doc table : Table} {section_ : String}
    (h : sectionTable doc section_ = .ok table) :
    Entries.get? section_ doc = some (.table table) ∨
      Entries.get? section_ doc = none ∧ table = [] := by
  rw [sectionTable] at h
  cases hget : Entries.get? section_ doc with
  | none =>
    simp only [hget] at h
    exact .inr ⟨rfl, (Except.ok.inj h).symm⟩
  | some item =>
    simp only [hget] at h
    cases htable : item.asTable with
    | none =>
      rw [htable] at h
      cases h
    | some table' =>
      rw [htable] at h
      obtain rfl := Except.ok.inj h
      rw [asTable_eq_some htable]
      exact .inl rfl

/-- A section is edited in its table, which is made if it is missing. -/
theorem setSectionValue_altersOnly {doc doc' : Table} {section_ key : String} {value : Json}
    (h : setSectionValue doc section_ key value = .ok doc') :
    AltersOnly doc doc' [section_, key] := by
  obtain ⟨item, -, h⟩ := except_bind_eq_ok h
  cases item with
  | none =>
    cases htable : (Entries.get? section_ doc).bind Item.asTable with
    | none =>
      simp only [htable] at h
      exact .nothing (Except.ok.inj h).symm
    | some table =>
      simp only [htable] at h
      obtain rfl := Except.ok.inj h
      obtain ⟨item, hget, hitem⟩ := Option.bind_eq_some_iff.mp htable
      rw [asTable_eq_some hitem] at hget
      refine .sectionKey (fun s hs => get?_set_of_ne hs) (.inl hget) (get?_set_self ..) ?_
      intro k hk
      rw [Entries.get?_remove, if_neg hk]
  | some item =>
    obtain ⟨table, htable, h⟩ := except_bind_eq_ok h
    obtain rfl := Except.ok.inj h
    exact .sectionKey (fun s hs => get?_set_of_ne hs) (sectionTable_eq_ok htable)
      (get?_set_self ..) fun k hk => get?_set_of_ne hk

/-! ### Declared queues -/

theorem queueTables_eq_ok {doc : Table} {arr : List Table} (h : queueTables doc = .ok arr) :
    queueList doc = arr := by
  rw [queueTables] at h
  rw [queueList]
  cases hget : Entries.get? "queues" doc with
  | none =>
    simp only [hget] at h
    exact Except.ok.inj h
  | some item =>
    simp only [hget] at h
    cases harr : item.asArrayOfTables with
    | none =>
      rw [harr] at h
      cases h
    | some arr' =>
      rw [harr] at h
      rw [Option.bind_some, harr]
      exact Except.ok.inj h

theorem queueList_set (doc : Table) (arr : List Table) :
    queueList (Entries.set "queues" (.arrayOfTables arr) doc) = arr := by
  rw [queueList, get?_set_self]
  rfl

/-- The first element that has a property, and the list with only this element changed. -/
theorem exists_of_findIdx? {α : Type} {p : α → Bool} {l : List α} {idx : ℕ}
    (h : l.findIdx? p = some idx) (f : α → α) :
    ∃ before x after, l = before ++ x :: after ∧ p x = true ∧ (∀ y ∈ before, p y = false) ∧
      l.modify idx f = before ++ f x :: after := by
  induction l generalizing idx with
  | nil => cases h
  | cons a l ih =>
    rw [List.findIdx?_cons] at h
    split_ifs at h with ha
    · obtain rfl := Option.some.inj h
      exact ⟨[], a, l, rfl, ha, fun y hy => absurd hy List.not_mem_nil, rfl⟩
    · obtain ⟨idx', hidx', rfl⟩ := Option.map_eq_some_iff.mp h
      obtain ⟨before, x, after, rfl, hx, hbefore, hmodify⟩ := ih hidx'
      refine ⟨a :: before, x, after, rfl, hx, ?_, ?_⟩
      · exact List.forall_mem_cons.mpr ⟨by simpa using ha, hbefore⟩
      · rw [List.modify_succ_cons, hmodify, List.cons_append]

theorem modify_append_singleton {α : Type} (l : List α) (x : α) (f : α → α) :
    (l ++ [x]).modify l.length f = l ++ [f x] := by
  induction l with
  | nil => rfl
  | cons a l ih => rw [List.cons_append, List.length_cons, List.modify_succ_cons, ih, List.cons_append]

theorem queueFields_ne_name {field : String} (h : field ∈ queueFields) : field ≠ "name" := by
  rintro rfl
  revert h
  decide

/-- A field is edited in the entry of its queue, which is declared if it is missing. -/
theorem upsertQueueField_altersOnly {doc doc' : Table} {name field : String} {value : Json}
    (h : upsertQueueField doc name field value = .ok doc') :
    AltersOnly doc doc' ["queues", name, field] := by
  obtain ⟨⟨⟩, hfield, h⟩ := except_bind_eq_ok h
  obtain ⟨item, -, h⟩ := except_bind_eq_ok h
  obtain ⟨⟨arr', idx⟩, hentry, h⟩ := except_bind_eq_ok h
  obtain ⟨arr, harr, hentry⟩ := except_bind_eq_ok hentry
  obtain rfl := Except.ok.inj h
  obtain rfl := queueTables_eq_ok harr
  have hname : field ≠ "name" := by
    rw [refuseIf_ok_iff, Bool.not_eq_false', List.contains_iff_mem] at hfield
    exact queueFields_ne_name hfield
  cases hidx : (queueList doc).findIdx? fun table => queueNameOf table = some name with
  | some idx' =>
    simp only [hidx] at hentry
    obtain ⟨rfl, rfl⟩ := Prod.mk.inj (Except.ok.inj hentry)
    obtain ⟨before, table, after, hqueues, htable, hbefore, hmodify⟩ :=
      exists_of_findIdx? hidx (putItem field item)
    have hqueues' : queueList (Entries.set "queues" (.arrayOfTables
        ((queueList doc).modify idx' (putItem field item))) doc) =
          before ++ putItem field item table :: after := by
      rw [queueList_set, hmodify]
    exact .queueField (fun s hs => get?_set_of_ne hs) hqueues (of_decide_eq_true htable)
      (fun t ht => of_decide_eq_false (hbefore t ht)) hqueues' hname fun f hf => get?_putItem_of_ne hf
  | none =>
    simp only [hidx] at hentry
    obtain ⟨rfl, rfl⟩ := Prod.mk.inj (Except.ok.inj hentry)
    rw [List.findIdx?_eq_none_iff] at hidx
    have hqueues' : queueList (Entries.set "queues" (.arrayOfTables
        ((queueList doc ++ [declaredQueue name]).modify (queueList doc).length
          (putItem field item))) doc) =
            queueList doc ++ [putItem field item (declaredQueue name)] := by
      rw [queueList_set, modify_append_singleton]
    refine .queueDeclared (fun s hs => get?_set_of_ne hs)
      (fun t ht => of_decide_eq_false (hidx t ht)) hqueues' ?_ fun f hf hne => ?_
    · rw [queueNameOf, get?_putItem_of_ne hname.symm]
      rfl
    · rw [get?_putItem_of_ne hf, declaredQueue, Entries.get?, if_neg hne.symm, Entries.get?]

/-! ### One change -/

/-- A change alters only what its path names. -/
theorem applyChange_altersOnly {doc doc' : Table} {path : String} {value : Json}
    (h : applyChange doc path value = .ok doc') : AltersOnly doc doc' (segments path) := by
  rw [applyChange] at h
  split at h
  · rename_i name field hpath
    rw [hpath]
    exact upsertQueueField_altersOnly h
  · rename_i section_ key hpath
    rw [hpath]
    exact setSectionValue_altersOnly h
  · cases h

variable {doc doc' : Table} {path : List String}

/-- What stands under a key of a section stays, unless the path is this section and key. -/
theorem AltersOnly.child_eq (h : AltersOnly doc doc' path) {section_ key : String}
    (hqueues : section_ ≠ "queues") (hpath : path ≠ [section_, key]) :
    child doc' section_ key = child doc section_ key := by
  cases h with
  | nothing h => rw [h]
  | @sectionKey edited editedKey table table' hother hbefore hafter hkeys =>
    by_cases hsection : section_ = edited
    · subst hsection
      have hkey : key ≠ editedKey := by
        rintro rfl
        exact hpath rfl
      rw [child, child, hafter, Option.bind_some, Item.child, hkeys key hkey]
      rcases hbefore with hbefore | ⟨hbefore, rfl⟩
      · rw [hbefore]
        rfl
      · rw [hbefore]
        rfl
    · rw [child, child, hother section_ hsection]
  | queueField hother => rw [child, child, hother section_ hqueues]
  | queueDeclared hother => rw [child, child, hother section_ hqueues]

/-- Names stay unique if they were. -/
theorem AltersOnly.nodup_queueNames (h : AltersOnly doc doc' path) (hnodup : (queueNames doc).Nodup) :
    (queueNames doc').Nodup := by
  cases h with
  | nothing h => rwa [h]
  | @sectionKey edited editedKey table table' hother hbefore hafter hkeys =>
    by_cases hsection : edited = "queues"
    · subst hsection
      have hnone : queueList doc' = [] := by
        rw [queueList, hafter]
        rfl
      rw [queueNames, hnone]
      exact List.nodup_nil
    · rw [queueNames, queueList, hother "queues" (Ne.symm hsection)]
      exact hnodup
  | queueField hother hqueues hname hfirst hqueues' hfield hfields =>
    have hsame : queueNameOf _ = queueNameOf _ :=
      congrArg (Option.bind · Item.asStr) (hfields "name" hfield.symm)
    rw [queueNames, hqueues', List.filterMap_append, List.filterMap_cons, hsame]
    rw [queueNames, hqueues, List.filterMap_append, List.filterMap_cons] at hnodup
    exact hnodup
  | @queueDeclared name field table' hother habsent hqueues' hname hfields =>
    rw [queueNames, hqueues', List.filterMap_append, List.filterMap_cons, hname]
    refine List.nodup_append.mpr ⟨hnodup, by simp, ?_⟩
    rintro n hn m hm rfl
    obtain ⟨t, ht, htname⟩ := List.mem_filterMap.mp hn
    rw [List.mem_singleton.mp hm] at htname
    exact habsent t ht htname

/-! ### A request -/

theorem refuseFirst_ok_iff {changes : List ConfigChange} {refused : ConfigChange → Bool}
    {code : String} {message : String → String} :
    refuseFirst changes refused code message = .ok () ↔
      ∀ change ∈ changes, refused change = false := by
  rw [refuseFirst]
  cases hfind : changes.find? refused with
  | none => simpa using List.find?_eq_none.mp hfind
  | some change =>
    refine iff_of_false (by simp) fun h => ?_
    have hrefused := h change (List.mem_of_find?_eq_some hfind)
    exact absurd (List.find?_some hfind) (by rw [hrefused]; exact Bool.false_ne_true)

theorem ConfigChange.path_ne_of_within {root : String} {change : ConfigChange}
    (h : change.within root = false) : change.path ≠ root := by
  rw [within, Bool.or_eq_false_iff] at h
  exact of_decide_eq_false h.1

/-- No change that passes the guards has the segments of the credentials. -/
theorem segments_ne_of_guards {pinned : List String} {changes : List ConfigChange}
    (h : putConfigGuards pinned changes = .ok ()) {change : ConfigChange} (hmem : change ∈ changes) :
    segments change.path ≠ ["admin", "keys"] ∧ segments change.path ≠ ["auth", "api_keys"] := by
  obtain ⟨⟨⟩, hadmin, h⟩ := except_bind_eq_ok h
  obtain ⟨⟨⟩, hauth, -⟩ := except_bind_eq_ok h
  have hadmin := ConfigChange.path_ne_of_within (refuseFirst_ok_iff.mp hadmin change hmem)
  have hauth := ConfigChange.path_ne_of_within (refuseFirst_ok_iff.mp hauth change hmem)
  have hsplit : segments "admin.keys" = ["admin", "keys"] ∧
      segments "auth.api_keys" = ["auth", "api_keys"] := by decide
  rw [← hsplit.1, ← hsplit.2]
  exact ⟨segments_injective.ne hadmin, segments_injective.ne hauth⟩

theorem applyChanges_cons {change : ConfigChange} {changes : List ConfigChange}
    (h : applyChanges doc (change :: changes) = .ok doc') :
    ∃ mid, applyChange doc change.path change.value = .ok mid ∧
      applyChanges mid changes = .ok doc' := by
  rw [applyChanges, List.foldlM_cons] at h
  exact except_bind_eq_ok h

theorem applyChanges_append {before after : List ConfigChange}
    (h : applyChanges doc (before ++ after) = .ok doc') :
    ∃ mid, applyChanges doc before = .ok mid ∧ applyChanges mid after = .ok doc' := by
  rw [applyChanges, List.foldlM_append] at h
  exact except_bind_eq_ok h

/-- A run of changes keeps what each of them keeps. -/
theorem applyChanges_keeps (P : Table → Table → Prop) (hrefl : ∀ t, P t t)
    (htrans : ∀ t₁ t₂ t₃, P t₁ t₂ → P t₂ t₃ → P t₁ t₃) {changes : List ConfigChange}
    (hstep : ∀ change ∈ changes, ∀ t t', AltersOnly t t' (segments change.path) → P t t')
    (h : applyChanges doc changes = .ok doc') : P doc doc' := by
  induction changes generalizing doc with
  | nil =>
    obtain rfl := Except.ok.inj h
    exact hrefl doc
  | cons change changes ih =>
    obtain ⟨mid, hfirst, hrest⟩ := applyChanges_cons h
    obtain ⟨hchange, hchanges⟩ := List.forall_mem_cons.mp hstep
    exact htrans _ _ _ (hchange doc mid (applyChange_altersOnly hfirst)) (ih hchanges hrest)

/-- A request that passes the guards leaves the credentials as they are, each of its changes alters
only what its path names, and the names of the declared queues stay unique. -/
theorem credentials_unchanged {pinned : List String} {changes : List ConfigChange}
    (hguards : putConfigGuards pinned changes = .ok ())
    (happly : applyChanges doc changes = .ok doc') :
    child doc' "admin" "keys" = child doc "admin" "keys" ∧
    child doc' "auth" "api_keys" = child doc "auth" "api_keys" ∧
    (∀ before change after, changes = before ++ change :: after → ∃ mid mid',
      applyChanges doc before = .ok mid ∧
      applyChange mid change.path change.value = .ok mid' ∧
      AltersOnly mid mid' (segments change.path) ∧
      ((queueNames mid).Nodup → (queueNames mid').Nodup)) ∧
    ((queueNames doc).Nodup → (queueNames doc').Nodup) := by
  refine ⟨?_, ?_, fun before change after hchanges => ?_, ?_⟩
  · refine applyChanges_keeps (fun t t' => child t' "admin" "keys" = child t "admin" "keys")
      (fun _ => rfl) (fun _ _ _ h h' => h'.trans h) ?_ happly
    intro change hchange t t' halters
    exact halters.child_eq (by decide) (segments_ne_of_guards hguards hchange).1
  · refine applyChanges_keeps (fun t t' => child t' "auth" "api_keys" = child t "auth" "api_keys")
      (fun _ => rfl) (fun _ _ _ h h' => h'.trans h) ?_ happly
    intro change hchange t t' halters
    exact halters.child_eq (by decide) (segments_ne_of_guards hguards hchange).2
  · rw [hchanges] at happly
    obtain ⟨mid, hbefore, hrest⟩ := applyChanges_append happly
    obtain ⟨mid', hchange, -⟩ := applyChanges_cons hrest
    have halters := applyChange_altersOnly hchange
    exact ⟨mid, mid', hbefore, hchange, halters, halters.nodup_queueNames⟩
  · refine applyChanges_keeps (fun t t' => (queueNames t).Nodup → (queueNames t').Nodup)
      (fun _ h => h) (fun _ _ _ h h' hnodup => h' (h hnodup)) ?_ happly
    intro change _ t t' halters
    exact halters.nodup_queueNames

/-- A file with credentials in two spellings and a declared queue. -/
def keyedDocument : Table :=
  [("admin", .table [("session_ttl_ms", .value (.integer 60000)), ("keys", .value (.array
      [.inlineTable [("name", .string "ops"), ("key", .string "alpha")]]))]),
    ("auth", .table [("api_keys", .arrayOfTables
      [[("name", .value (.string "pool")), ("key", .value (.string "s1"))]])]),
    ("queues", .arrayOfTables [[("name", .value (.string "mail"))]])]

/-- A key of a section, a section that is not there, a field of a queue, and a new queue. -/
def fourChanges : List ConfigChange :=
  [{ path := "admin.session_ttl_ms" },
    { path := "limits.default_priority", value := .number (.posInt 7) },
    { path := "queues.mail.max_queue_depth", value := .number (.posInt 10) },
    { path := "queues.sms.retry_delay_ms" }]

/-- The file after these changes. -/
def editedDocument : Table :=
  [("admin", .table [("keys", .value (.array
      [.inlineTable [("name", .string "ops"), ("key", .string "alpha")]]))]),
    ("auth", .table [("api_keys", .arrayOfTables
      [[("name", .value (.string "pool")), ("key", .value (.string "s1"))]])]),
    ("queues", .arrayOfTables [[("name", .value (.string "mail")),
      ("max_queue_depth", .value (.integer 10))], [("name", .value (.string "sms"))]]),
    ("limits", .table [("default_priority", .value (.integer 7))])]

theorem credentials_unchanged_fourChanges :
    applyChanges keyedDocument fourChanges = .ok editedDocument ∧
      child editedDocument "admin" "keys" = child keyedDocument "admin" "keys" ∧
      child editedDocument "auth" "api_keys" = child keyedDocument "auth" "api_keys" ∧
      (queueNames editedDocument).Nodup := by
  have hguards : putConfigGuards ["server.db_path"] fourChanges = .ok () := by decide
  have happly : applyChanges keyedDocument fourChanges = .ok editedDocument := by rfl
  obtain ⟨hadmin, hauth, -, hnodup⟩ := credentials_unchanged hguards happly
  exact ⟨happly, hadmin, hauth, hnodup (by decide)⟩

end Sepp
