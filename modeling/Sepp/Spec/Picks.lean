import Sepp.Library.InTurn
import Sepp.Library.Realize
import Sepp.Spec.Queues

/-!
# A list of keys

An admin names jobs of a queue by the keys of their rows in one keyspace. The list is arbitrary: a
key may come twice, be garbage, or be a row of another queue. An operation on the list goes from key
to key. A key that is a row of the queue when its turn comes is a hit, and its job leaves the
keyspace, so that the same key is a miss the next time.

## Main definitions

* `Rows.picked` — the keys of a list that are rows of the queue, each once.
* `PickTurn`, `Image.Hit` — one key of the list, and one that is a row of the queue.
* `Image.Picks` — the whole list.

## Main results

* `picks_of_turns` — the list is as good as the keys that are picked.
* `nodup_of_hits`, `Represents.of_hits` — what the hits do.
-/

open Std

namespace Sepp

/-- The keys of the list that are rows of the queue in the keyspace, each once. -/
def Rows.picked [Prost] (rows : Rows) (ks : KeyspaceName) (queue : String) (keys : List Bytes) :
    List Bytes :=
  (keys.filter fun key => (rows.get ks).contains key ∧ rows.queueOf ks key = some queue).eraseDups

section Picks

variable [Prost]

/-- The job of the queue that has the row in the keyspace. -/
def Image.At (a : Image) (ks : KeyspaceName) (queue : String) (key : Bytes) (id : String) : Prop :=
  ∃ js value, a.jobs id = some js ∧ js.content.queue = queue ∧
    JobState.row ks id js = some (key, value)

open Classical in
/-- The keys of the list that are rows of jobs of the queue, each once. -/
noncomputable def Image.picked (a : Image) (ks : KeyspaceName) (queue : String)
    (keys : List Bytes) : List Bytes :=
  (keys.filter fun key => ∃ id, a.At ks queue key id).eraseDups

/-- The job that has the row becomes `f` of it. -/
def Image.Hit (ks : KeyspaceName) (queue : String) (f : JobState → Option JobState) (a : Image)
    (key : Bytes) (id : String) (a' : Image) : Prop :=
  ∃ js value, a.jobs id = some js ∧ js.content.queue = queue ∧
    JobState.row ks id js = some (key, value) ∧ a' = a.setJob id (f js)

/-- One key of the list. -/
inductive PickTurn {β : Type} (ks : KeyspaceName) (queue : String)
    (f : JobState → Option JobState) (result : String → β) (a : Image) (key : Bytes) :
    Option β → Image → Prop
  | miss (hnone : ∀ id, ¬ a.At ks queue key id) : PickTurn ks queue f result a key none a
  | hit {id : String} {a' : Image} (hhit : a.Hit ks queue f key id a') :
      PickTurn ks queue f result a key (some (result id)) a'

variable {a a' : Image} {rows : Rows} {idx : Indexes} {ks : KeyspaceName} {queue : String}
  {f : JobState → Option JobState} {key : Bytes} {keys : List Bytes} {ids : List String}

/-- The rows of the queue are those of its jobs. -/
theorem Represents.at_iff (h : Represents a rows idx) (hks : ks.ofJobs = true) :
    (∃ id, a.At ks queue key id) ↔ key ∈ rows.get ks ∧ rows.queueOf ks key = some queue := by
  rw [ExtTreeMap.mem_iff_exists]
  constructor
  · rintro ⟨id, js, value, hJ, hqueue, hrow⟩
    obtain ⟨hget, howner⟩ := (h.get_job_iff hks).mpr ⟨id, js, hJ, hqueue, hrow⟩
    exact ⟨⟨value, hget⟩, howner⟩
  · rintro ⟨⟨value, hget⟩, howner⟩
    obtain ⟨id, js, hJ, hqueue, hrow⟩ := (h.get_job_iff hks).mp ⟨hget, howner⟩
    exact ⟨id, js, value, hJ, hqueue, hrow⟩

theorem Represents.picked_eq (h : Represents a rows idx) (hks : ks.ofJobs = true)
    (queue : String) (keys : List Bytes) :
    rows.picked ks queue keys = a.picked ks queue keys := by
  rw [Rows.picked, Image.picked]
  congr 1
  refine List.filter_congr fun key _ => decide_eq_decide.mpr ?_
  rw [h.at_iff hks, ExtTreeMap.mem_iff_contains]

/-- A key that is no row of the keyspace is a miss. -/
theorem Represents.not_at (h : Represents a rows idx) (hks : ks.ofJobs = true)
    (hno : (rows.get ks)[key]? = none ∨ rows.queueOf ks key ≠ some queue) :
    ∀ id, ¬ a.At ks queue key id := by
  intro id hat
  obtain ⟨hmem, howner⟩ := (h.at_iff hks).mp ⟨id, hat⟩
  rcases hno with hnone | hother
  · rw [ExtTreeMap.mem_iff_isSome_getElem?, hnone] at hmem
    cases hmem
  · exact hother howner

/-- A row of another queue is a miss. -/
theorem Image.not_at_of_row {id : String} {js : JobState} {value : Bytes} (hJ : a.jobs id = some js)
    (hrow : JobState.row ks id js = some (key, value)) (hqueue : js.content.queue.1 ≠ queue) :
    ∀ id, ¬ a.At ks queue key id := by
  rintro id' ⟨js', value', hJ', hqueue', hrow'⟩
  obtain rfl := Option.some.inj ((JobState.jobOf_row hrow').symm.trans (JobState.jobOf_row hrow))
  obtain rfl := Option.some.inj (hJ.symm.trans hJ')
  exact hqueue hqueue'

/-- After a hit the other keys are where they were. -/
theorem Image.Hit.at_iff (hf : ∀ js js' id, f js = some js' → JobState.row ks id js' = none)
    {id : String} (h : a.Hit ks queue f key id a') (key' : Bytes) (id' : String) :
    a'.At ks queue key' id' ↔ a.At ks queue key' id' ∧ key' ≠ key := by
  obtain ⟨js, value, hJ, -, hrow, rfl⟩ := h
  constructor
  · rintro ⟨js', value', hJ', hqueue, hrow'⟩
    rw [Image.setJob_jobs] at hJ'
    by_cases heq : id' = id
    · rw [heq, Function.update_self] at hJ'
      rw [hf js js' id' hJ'] at hrow'
      cases hrow'
    · rw [Function.update_of_ne heq] at hJ'
      refine ⟨⟨js', value', hJ', hqueue, hrow'⟩, ?_⟩
      rintro rfl
      exact heq (Option.some.inj ((JobState.jobOf_row hrow').symm.trans (JobState.jobOf_row hrow)))
  · rintro ⟨⟨js', value', hJ', hqueue, hrow'⟩, hne⟩
    have heq : id' ≠ id := by
      rintro rfl
      obtain rfl := Option.some.inj (hJ.symm.trans hJ')
      obtain ⟨rfl, -⟩ := Prod.mk.inj (Option.some.inj (hrow.symm.trans hrow'))
      exact hne rfl
    refine ⟨js', value', ?_, hqueue, hrow'⟩
    rwa [Image.setJob_jobs, Function.update_of_ne heq]

theorem Image.mem_picked_iff :
    key ∈ a.picked ks queue keys ↔ key ∈ keys ∧ ∃ id, a.At ks queue key id := by
  rw [Image.picked, List.mem_eraseDups, List.mem_filter]
  simp

theorem Image.picked_cons_of_miss (hnone : ∀ id, ¬ a.At ks queue key id) :
    a.picked ks queue (key :: keys) = a.picked ks queue keys := by
  rw [Image.picked, Image.picked, List.filter_cons_of_neg (by simpa using hnone)]

/-- After a hit the rest of the list is picked without the key. -/
theorem Image.picked_cons_of_hit (hf : ∀ js js' id, f js = some js' → JobState.row ks id js' = none)
    {id : String} (h : a.Hit ks queue f key id a') :
    a.picked ks queue (key :: keys) = key :: a'.picked ks queue keys := by
  classical
  have hat : ∃ id, a.At ks queue key id := by
    obtain ⟨js, value, hJ, hqueue, hrow, -⟩ := h
    exact ⟨id, js, value, hJ, hqueue, hrow⟩
  rw [Image.picked, Image.picked, List.filter_cons_of_pos (by simpa using hat),
    List.eraseDups_cons, List.filter_not_beq, List.filter_filter]
  congr 2
  refine List.filter_congr fun key' _ => ?_
  rw [Bool.eq_iff_iff, Bool.and_eq_true, decide_eq_true_iff, decide_eq_true_iff,
    decide_eq_true_iff]
  constructor
  · rintro ⟨hne, id', hat'⟩
    exact ⟨id', (h.at_iff hf key' id').mpr ⟨hat', hne⟩⟩
  · rintro ⟨id', hat'⟩
    obtain ⟨hat', hne⟩ := (h.at_iff hf key' id').mp hat'
    exact ⟨hne, id', hat'⟩

/-- The list is as good as the keys that are picked, one hit after the other. -/
theorem hits_of_turns {β : Type} {result : String → β} {rs : List (Option β)}
    (hf : ∀ js js' id, f js = some js' → JobState.row ks id js' = none)
    (h : Chained (PickTurn ks queue f result) a keys rs a') :
    ∃ ids, rs.reduceOption = ids.map result ∧
      Chained (Image.Hit ks queue f) a (a.picked ks queue keys) ids a' := by
  induction h with
  | nil a => exact ⟨[], rfl, .nil a⟩
  | @cons a b c key r keys rs hturn _ ih =>
    obtain ⟨ids, hrs, hhits⟩ := ih
    cases hturn with
    | miss hnone =>
      rw [Image.picked_cons_of_miss hnone]
      exact ⟨ids, hrs, hhits⟩
    | @hit id _ hhit =>
      rw [Image.picked_cons_of_hit hf hhit]
      refine ⟨id :: ids, ?_, .cons hhit hhits⟩
      rw [List.reduceOption_cons_of_some, hrs, List.map_cons]

/-- What an operation on the list answers and does. -/
structure Image.Picks (a : Image) (ks : KeyspaceName) (queue : String)
    (f : JobState → Option JobState) (keys : List Bytes) (success missing : ℕ)
    (ids : List String) (a' : Image) : Prop where
  hits : Chained (Image.Hit ks queue f) a (a.picked ks queue keys) ids a'
  success_eq : success = ids.length
  total_eq : success + missing = keys.length

theorem picks_of_turns {β : Type} {result : String → β} {rs : List (Option β)}
    (hf : ∀ js js' id, f js = some js' → JobState.row ks id js' = none)
    (h : Chained (PickTurn ks queue f result) a keys rs a') :
    ∃ ids, rs.reduceOption = ids.map result ∧
      a.Picks ks queue f keys rs.reduceOption.length (rs.countP Option.isNone) ids a' := by
  obtain ⟨ids, hrs, hhits⟩ := hits_of_turns hf h
  refine ⟨ids, hrs, hhits, by rw [hrs, List.length_map], ?_⟩
  rw [List.countP_eq_length_filter, ← List.length_eq_reduceOption_length_add_filter_none,
    h.length_eq]

/-! ### Hits one after the other -/

theorem Image.Hit.jobOf {id : String} (h : a.Hit ks queue f key id a') :
    ks.jobOf key = some id := by
  obtain ⟨js, value, -, -, hrow, -⟩ := h
  exact JobState.jobOf_row hrow

theorem map_jobOf_of_hits (h : Chained (Image.Hit ks queue f) a keys ids a') :
    ids.map some = keys.map ks.jobOf := by
  induction h with
  | nil => rfl
  | cons hhit _ ih => rw [List.map_cons, List.map_cons, ih, hhit.jobOf]

theorem jobs_of_hits (h : Chained (Image.Hit ks queue f) a keys ids a') {id : String}
    (hid : id ∉ ids) : a'.jobs id = a.jobs id := by
  induction h with
  | nil => rfl
  | cons hhit _ ih =>
    obtain ⟨hne, hid⟩ := List.ne_and_not_mem_of_not_mem_cons hid
    obtain ⟨js, value, -, -, -, rfl⟩ := hhit
    rw [ih hid, Image.setJob_jobs, Function.update_of_ne hne]

theorem rest_of_hits (h : Chained (Image.Hit ks queue f) a keys ids a') :
    a'.dedup = a.dedup ∧ a'.closing = a.closing ∧ a'.audit = a.audit := by
  induction h with
  | nil => exact ⟨rfl, rfl, rfl⟩
  | cons hhit _ ih =>
    obtain ⟨js, value, -, -, -, rfl⟩ := hhit
    exact ih

/-- The job has no row in the keyspace. -/
def Image.Absent (a : Image) (ks : KeyspaceName) (id : String) : Prop :=
  ∀ js, a.jobs id = some js → JobState.row ks id js = none

theorem Image.Hit.absent (hf : ∀ js js' id, f js = some js' → JobState.row ks id js' = none)
    {id : String} (h : a.Hit ks queue f key id a') : a'.Absent ks id := by
  intro js' hJ'
  obtain ⟨js, value, -, -, -, rfl⟩ := h
  rw [Image.setJob_jobs, Function.update_self] at hJ'
  exact hf js js' id hJ'

/-- A job without a row in the keyspace is never hit. -/
theorem Image.Absent.of_hits {id : String} (h : a.Absent ks id)
    (hhits : Chained (Image.Hit ks queue f) a keys ids a') : id ∉ ids ∧ a'.Absent ks id := by
  have hnot : id ∉ ids := by
    induction hhits with
    | nil => exact List.not_mem_nil
    | @cons a b c key id' keys ids hhit _ ih =>
      obtain ⟨js, value, hJ, -, hrow, rfl⟩ := hhit
      have hne : id ≠ id' := by
        rintro rfl
        rw [h js hJ] at hrow
        cases hrow
      refine List.not_mem_cons_of_ne_of_not_mem hne (ih fun js' hJ' => h js' ?_)
      rwa [Image.setJob_jobs, Function.update_of_ne hne] at hJ'
  refine ⟨hnot, fun js hJ => h js ?_⟩
  rwa [jobs_of_hits hhits hnot] at hJ

/-- Each job is hit once, and leaves the keyspace. -/
theorem nodup_of_hits (hf : ∀ js js' id, f js = some js' → JobState.row ks id js' = none)
    (h : Chained (Image.Hit ks queue f) a keys ids a') :
    ids.Nodup ∧ ∀ id ∈ ids, a'.Absent ks id := by
  induction h with
  | nil => exact ⟨List.nodup_nil, fun id hid => absurd hid List.not_mem_nil⟩
  | @cons a b c key id keys ids hhit hrest ih =>
    obtain ⟨hnodup, hgone⟩ := ih
    obtain ⟨hnot, habsent⟩ := (hhit.absent hf).of_hits hrest
    refine ⟨List.nodup_cons.mpr ⟨hnot, hnodup⟩, fun id' hid' => ?_⟩
    rcases List.mem_cons.mp hid' with rfl | hid'
    · exact habsent
    · exact hgone id' hid'

/-- A job that is hit becomes `f` of it. -/
theorem job_of_hits (hf : ∀ js js' id, f js = some js' → JobState.row ks id js' = none)
    (h : Chained (Image.Hit ks queue f) a keys ids a') {id : String} (hid : id ∈ ids) :
    ∃ js, a.jobs id = some js ∧ a'.jobs id = f js := by
  induction h with
  | nil => cases hid
  | @cons a b c key id' keys ids hhit hrest ih =>
    obtain ⟨hnot, -⟩ := (hhit.absent hf).of_hits hrest
    obtain ⟨js, value, hJ, -, -, rfl⟩ := hhit
    rcases List.mem_cons.mp hid with rfl | hid'
    · refine ⟨js, hJ, ?_⟩
      rw [jobs_of_hits hrest hnot, Image.setJob_jobs, Function.update_self]
    · have hne : id ≠ id' := by
        rintro rfl
        exact hnot hid'
      obtain ⟨js', hJ', hafter⟩ := ih hid'
      rw [Image.setJob_jobs, Function.update_of_ne hne] at hJ'
      exact ⟨js', hJ', hafter⟩

/-- Hits on one queue leave the others alone. -/
theorem sameQueue_of_hits (hcontent : ∀ js js', f js = some js' → js'.content = js.content)
    (h : Chained (Image.Hit ks queue f) a keys ids a') {other : String} (hne : other ≠ queue) :
    a.SameQueue a' other := by
  induction h with
  | nil => exact .refl _ _
  | cons hhit _ ih =>
    obtain ⟨js, value, hJ, hqueue, -, rfl⟩ := hhit
    refine Image.SameQueue.trans (.setJob (fun js' hJ' heq => ?_) fun js' hjs heq => ?_) ih
    · obtain rfl := Option.some.inj (hJ.symm.trans hJ')
      exact hne (heq.symm.trans hqueue)
    · rw [hcontent js js' hjs] at heq
      exact hne (heq.symm.trans hqueue)

/-- The rows after some hits, when those after one hit are known. -/
theorem Represents.of_hits {step : Rows → Bytes → Rows}
    (hstep : ∀ {a rows idx key id a'}, Represents a rows idx → a.Hit ks queue f key id a' →
      ∃ idx', Represents a' (step rows key) idx')
    (h : Represents a rows idx) (hhits : Chained (Image.Hit ks queue f) a keys ids a') :
    ∃ idx', Represents a' (keys.foldl step rows) idx' := by
  induction hhits generalizing rows idx with
  | nil => exact ⟨idx, h⟩
  | cons hhit _ ih =>
    obtain ⟨idx₁, h₁⟩ := hstep h hhit
    exact ih h₁

end Picks

end Sepp
