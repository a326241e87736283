import Sepp.Library.FirstBy
import Sepp.Spec.Layout
import Sepp.Wire.Order

/-!
# What a sweep does to the abstract state

A sweep drops the tombstones that have lapsed, and each of its phases processes a list of keys: of
scheduled jobs, which become ready; of leases, which end with a redelivery or a dead letter; of
dedup timers, whose records are forgotten; and of dead letters, which are dropped. A phase changes
the jobs or records whose keys are in its list, and nothing else.

The keys of a phase are those that its budget lets it pop, and these are the first of the due keys
in the order of their deadlines.

## Main definitions

* `TimerIndex.popAll` — the keys that a phase pops.
* `Image.lapse`, `Image.promote`, `Image.expire`, `Image.forget`, `Image.retain`.

## Main results

* `TimerIndex.firstBy_popAll` — the popped keys are the first due keys.
* `Image.promote_cons` and its counterparts — the keys of a phase may be processed one at a time.
-/

open Std

namespace Sepp

/-! ### The keys of a phase -/

namespace TimerIndex

/-- The keys that at most `n` pops take out. -/
def popAll (now : Int64) : ℕ → TimerIndex → List Bytes
  | 0, _ => []
  | n + 1, idx =>
    match idx.popDue now with
    | none => []
    | some ((key, _), rest) => key :: popAll now n rest

/-- The keys that are due, of those with `P`. -/
def dueKeys (P : Bytes → Prop) (now : Int64) : Set Bytes := { key | P key ∧ ¬ now < deadlineOf key }

/-- The popped keys are the first due keys, in the order of their deadlines. -/
theorem firstBy_popAll (now : Int64) (n : ℕ) (idx : TimerIndex)
    (htimes : ∀ key ∈ idx.keys, StartsWithTime key) :
    FirstBy (fun key key' => deadlineOf key ≤ deadlineOf key') (dueKeys (· ∈ idx.keys) now) n
      (idx.popAll now n) := by
  induction n generalizing idx with
  | zero => exact .zero _ _
  | succ n ih =>
    have hget : ∀ {key queue}, idx.keys[key]? = some queue → key ∈ idx.keys := fun h =>
      ExtTreeMap.mem_iff_exists.mpr ⟨_, h⟩
    rw [popAll]
    split
    · rename_i hpop
      refine .empty _ _ (Set.eq_empty_iff_forall_notMem.mpr ?_)
      rintro key ⟨hkey, hdue⟩
      obtain ⟨queue, hqueue⟩ := ExtTreeMap.mem_iff_exists.mp hkey
      -- the first key is not due, and no key has an earlier deadline
      obtain ⟨first, owner, hfirst, hle, hlater⟩ := lt_of_popDue_eq_none hpop hqueue
      exact hdue (Int64.lt_of_lt_of_le hlater
        ((htimes _ (hget hfirst)).deadlineOf_le (htimes _ hkey) hle))
    · rename_i key queue rest hpop
      obtain ⟨hkey, hdue, rfl⟩ := popDue_eq_some hpop
      refine .cons ⟨hget hkey, hdue⟩ (fun key' hkey' => ?_) ?_
      · obtain ⟨queue', hqueue'⟩ := ExtTreeMap.mem_iff_exists.mp hkey'.1
        exact (htimes _ (hget hkey)).deadlineOf_le (htimes _ hkey'.1) (isLE_of_popDue hpop hqueue')
      · have hrest : dueKeys (· ∈ (idx.remove key).2.keys) now =
            dueKeys (· ∈ idx.keys) now \ {key} := by
          ext key'
          simp only [dueKeys, keys_remove, ExtTreeMap.mem_erase_iff, Set.mem_ofPred_eq,
            Set.mem_sdiff, Set.mem_singleton_iff, and_right_comm]
        rw [← hrest]
        refine ih _ fun key' hkey' => htimes key' ?_
        rw [keys_remove] at hkey'
        exact ExtTreeMap.mem_of_mem_erase hkey'

/-- The popped keys are keys of the index that are due. -/
theorem mem_dueKeys_of_mem_popAll {now : Int64} {n : ℕ} {idx : TimerIndex} {key : Bytes}
    (h : key ∈ idx.popAll now n) : key ∈ dueKeys (· ∈ idx.keys) now := by
  induction n generalizing idx with
  | zero => cases h
  | succ n ih =>
    rw [popAll] at h
    split at h
    · cases h
    · rename_i first queue rest hpop
      obtain ⟨hfirst, hdue, rfl⟩ := popDue_eq_some hpop
      rcases List.mem_cons.mp h with rfl | h
      · exact ⟨ExtTreeMap.mem_iff_exists.mpr ⟨_, hfirst⟩, hdue⟩
      · obtain ⟨hmem, hdue'⟩ := ih h
        rw [keys_remove] at hmem
        exact ⟨ExtTreeMap.mem_of_mem_erase hmem, hdue'⟩

theorem finite_dueKeys (idx : TimerIndex) (now : Int64) :
    (dueKeys (· ∈ idx.keys) now).Finite :=
  (List.finite_toSet idx.keys.keys).subset fun _ hkey => ExtTreeMap.mem_keys.mpr hkey.1

end TimerIndex

/-! ### Changes job by job -/

namespace Image

/-- Changes every job by itself; `none` drops it. -/
def onJobs (f : String → JobState → Option JobState) (a : Image) : Image :=
  { a with jobs := fun id => (a.jobs id).bind (f id) }

variable {a : Image} {f f' g : String → JobState → Option JobState}

theorem onJobs_eq_self (h : ∀ id js, f id js = some js) : a.onJobs f = a := by
  have hjobs : (fun id => (a.jobs id).bind (f id)) = a.jobs := by
    funext id
    cases hJ : a.jobs id with
    | none => rfl
    | some js => exact h id js
  rw [onJobs, hjobs]

theorem onJobs_onJobs (h : ∀ id js, (f id js).bind (g id) = f' id js) :
    (a.onJobs f).onJobs g = a.onJobs f' := by
  have hjobs : (fun id => ((a.jobs id).bind (f id)).bind (g id)) =
      fun id => (a.jobs id).bind (f' id) := by
    funext id
    cases hJ : a.jobs id with
    | none => rfl
    | some js => exact h id js
  rw [onJobs, onJobs, onJobs]
  exact congrArg (fun jobs => { a with jobs }) hjobs

/-- A change of one job only. -/
theorem onJobs_eq_setJob {id : String} {js : JobState} (hjob : a.jobs id = some js)
    (hother : ∀ id' js', id' ≠ id → a.jobs id' = some js' → f id' js' = some js') :
    a.onJobs f = a.setJob id (f id js) := by
  have hjobs : (fun id => (a.jobs id).bind (f id)) = Function.update a.jobs id (f id js) := by
    funext id'
    by_cases hid : id' = id
    · rw [hid, Function.update_self, hjob, Option.bind_some]
    · rw [Function.update_of_ne hid]
      cases hJ : a.jobs id' with
      | none => rfl
      | some js' => exact hother id' js' hid hJ
  rw [onJobs, hjobs, setJob]

end Image

/-! ### One job -/

namespace JobState

/-- The job after a promotion of the scheduled keys. -/
def promotedBy (keys : List Bytes) (id : String) (js : JobState) : Option JobState :=
  match js.place with
  | .scheduled attempt deadline =>
    if TimerKey.encode { deadline, jobId := id } ∈ keys then
      some { js with place := .ready attempt }
    else some js
  | _ => some js

/-- The job after the end of the leases, at `now`. -/
def expiredBy (now : Int64) (kept : Bool) (keys : List Bytes) (id : String) (js : JobState) :
    Option JobState :=
  match js.place with
  | .leased attempt expires =>
    if TimerKey.encode { deadline := expires, jobId := id } ∈ keys then
      if js.content.maxAttempts ≤ attempt then
        if kept then some { js with place := .dead attempt now .leaseExpired none } else none
      else some { js with place := .ready (attempt + 1) }
    else some js
  | _ => some js

/-- The job after the end of retention of the dead letters. -/
def retainedBy (keys : List Bytes) (id : String) (js : JobState) : Option JobState :=
  match js.place with
  | .dead _ failedAt _ _ => if js.deadKey id failedAt ∈ keys then none else some js
  | _ => some js

variable (now : Int64) (kept : Bool) (key : Bytes) (keys : List Bytes) (id : String)
  (js : JobState)

theorem promotedBy_nil : js.promotedBy [] id = some js := by
  unfold promotedBy
  split <;> simp

theorem promotedBy_cons :
    (js.promotedBy [key] id).bind (promotedBy keys id) = js.promotedBy (key :: keys) id := by
  cases hp : js.place with
  | scheduled attempt deadline =>
    by_cases hkey : TimerKey.encode { deadline, jobId := id } = key <;>
      simp [promotedBy, hp, hkey]
  | _ => simp [promotedBy, hp]

theorem expiredBy_nil : js.expiredBy now kept [] id = some js := by
  unfold expiredBy
  split <;> simp

theorem expiredBy_cons : (js.expiredBy now kept [key] id).bind (expiredBy now kept keys id) =
    js.expiredBy now kept (key :: keys) id := by
  cases hp : js.place with
  | leased attempt expires =>
    by_cases hkey : TimerKey.encode { deadline := expires, jobId := id } = key
    · by_cases hlast : js.content.maxAttempts ≤ attempt <;> cases kept <;>
        simp [expiredBy, hp, hkey, hlast]
    · simp [expiredBy, hp, hkey]
  | _ => simp [expiredBy, hp]

theorem retainedBy_nil : js.retainedBy [] id = some js := by
  unfold retainedBy
  split <;> simp

theorem retainedBy_cons :
    (js.retainedBy [key] id).bind (retainedBy keys id) = js.retainedBy (key :: keys) id := by
  cases hp : js.place with
  | dead attempt failedAt cause reason =>
    by_cases hkey : js.deadKey id failedAt = key <;> simp [retainedBy, hp, hkey]
  | _ => simp [retainedBy, hp]

end JobState

/-! ### The phases -/

namespace Image

/-- Drops the tombstones whose deadline has passed. -/
def lapse (now : Int64) (a : Image) : Image :=
  { a with closing := fun queue => (a.closing queue).filter fun deadline => now < deadline }

/-- Makes the jobs of the scheduled keys ready. -/
def promote (keys : List Bytes) (a : Image) : Image := a.onJobs (JobState.promotedBy keys)

/-- Ends the leases. -/
def expire (now : Int64) (kept : Bool) (keys : List Bytes) (a : Image) : Image :=
  a.onJobs (JobState.expiredBy now kept keys)

/-- Forgets the records of the dedup timers. -/
def forget (keys : List Bytes) (a : Image) : Image :=
  { a with dedup := fun name => (a.dedup name).filter fun d => dedupTimer name d.deadline ∉ keys }

/-- Drops the dead letters. -/
def retain (keys : List Bytes) (a : Image) : Image := a.onJobs (JobState.retainedBy keys)

variable (a : Image) (now : Int64) (kept : Bool) (key : Bytes) (keys : List Bytes)

theorem promote_nil : a.promote [] = a := onJobs_eq_self (JobState.promotedBy_nil)

theorem promote_cons : (a.promote [key]).promote keys = a.promote (key :: keys) :=
  onJobs_onJobs (JobState.promotedBy_cons key keys)

theorem expire_nil : a.expire now kept [] = a := onJobs_eq_self (JobState.expiredBy_nil now kept)

theorem expire_cons :
    (a.expire now kept [key]).expire now kept keys = a.expire now kept (key :: keys) :=
  onJobs_onJobs (JobState.expiredBy_cons now kept key keys)

theorem retain_nil : a.retain [] = a := onJobs_eq_self (JobState.retainedBy_nil)

theorem retain_cons : (a.retain [key]).retain keys = a.retain (key :: keys) :=
  onJobs_onJobs (JobState.retainedBy_cons key keys)

theorem forget_nil : a.forget [] = a := by
  have h : (fun name => (a.dedup name).filter fun d => dedupTimer name d.deadline ∉ ([] : List Bytes))
      = a.dedup := by
    funext name
    cases a.dedup name <;> simp
  rw [forget, h]

theorem forget_cons : (a.forget [key]).forget keys = a.forget (key :: keys) := by
  have h : (fun name => ((a.dedup name).filter fun d => dedupTimer name d.deadline ∉ [key]).filter
      fun d => dedupTimer name d.deadline ∉ keys) =
      fun name => (a.dedup name).filter fun d => dedupTimer name d.deadline ∉ key :: keys := by
    funext name
    cases hd : a.dedup name with
    | none => rfl
    | some d =>
      by_cases hkey : dedupTimer name d.deadline = key <;> simp [Option.filter, hkey]
  rw [forget, forget, forget]
  exact congrArg (fun dedup => { a with dedup }) h

section Singleton

variable {a now kept} {id : String} {js : JobState} {attempt : UInt32}

theorem promote_singleton {deadline : Int64} (hjob : a.jobs id = some js)
    (hplace : js.place = .scheduled attempt deadline) :
    a.promote [TimerKey.encode { deadline, jobId := id }] =
      a.setJob id (some { js with place := .ready attempt }) := by
  rw [promote, onJobs_eq_setJob hjob]
  · simp [JobState.promotedBy, hplace]
  · intro id' js' hid _
    unfold JobState.promotedBy
    split
    · refine if_neg fun hmem => hid ?_
      exact congrArg TimerKey.jobId (TimerKey.encode_injective (List.mem_singleton.mp hmem))
    · rfl

theorem expire_singleton {expires : Int64} (hjob : a.jobs id = some js)
    (hplace : js.place = .leased attempt expires) :
    a.expire now kept [TimerKey.encode { deadline := expires, jobId := id }] =
      a.setJob id (if js.content.maxAttempts ≤ attempt then
        if kept then some { js with place := .dead attempt now .leaseExpired none } else none
      else some { js with place := .ready (attempt + 1) }) := by
  rw [expire, onJobs_eq_setJob hjob]
  · simp [JobState.expiredBy, hplace]
  · intro id' js' hid _
    unfold JobState.expiredBy
    split
    · refine if_neg fun hmem => hid ?_
      exact congrArg TimerKey.jobId (TimerKey.encode_injective (List.mem_singleton.mp hmem))
    · rfl

theorem retain_singleton {failedAt : Int64} {cause : DeadLetterCause} {reason : Option String}
    (hjob : a.jobs id = some js) (hplace : js.place = .dead attempt failedAt cause reason) :
    a.retain [js.deadKey id failedAt] = a.setJob id none := by
  rw [retain, onJobs_eq_setJob hjob]
  · simp [JobState.retainedBy, hplace]
  · intro id' js' hid _
    unfold JobState.retainedBy
    split
    · refine if_neg fun hmem => hid ?_
      have hown := congrArg DeadLetterKey.jobIdOf (List.mem_singleton.mp hmem)
      rw [jobIdOf_deadKey, jobIdOf_deadKey] at hown
      exact Option.some.inj hown
    · rfl

theorem forget_singleton {name : DedupName} {d : DedupState} (hd : a.dedup name = some d) :
    a.forget [dedupTimer name d.deadline] = a.setDedup name none := by
  have h : (fun name' => (a.dedup name').filter fun d' =>
      dedupTimer name' d'.deadline ∉ [dedupTimer name d.deadline]) =
      Function.update a.dedup name none := by
    funext name'
    by_cases hname : name' = name
    · rw [hname, Function.update_self, hd]
      simp
    · rw [Function.update_of_ne hname]
      cases a.dedup name' with
      | none => rfl
      | some d' =>
        refine Option.filter_some_pos (decide_eq_true fun hmem => hname ?_)
        have hown := congrArg dedupTimerName (List.mem_singleton.mp hmem)
        rw [dedupTimerName_dedupTimer, dedupTimerName_dedupTimer] at hown
        exact Option.some.inj hown
  rw [forget, h, setDedup]

end Singleton

/-! ### What a phase leaves alone -/

section Alone

variable {α β : Type*} {f : String → JobState → Option JobState}
  {g : String → JobState → Option (α × β)}

/-- Rows that no change of a job touches. -/
theorem rowsOf_onJobs (h : ∀ id js, (f id js).bind (g id) = g id js) :
    rowsOf g (a.onJobs f).jobs = rowsOf g a.jobs := by
  funext id
  rw [rowsOf, rowsOf, onJobs]
  dsimp only
  cases a.jobs id with
  | none => rfl
  | some js => exact h id js

theorem leaseEntry_promote :
    rowsOf JobState.leaseEntry (a.promote keys).jobs = rowsOf JobState.leaseEntry a.jobs := by
  refine rowsOf_onJobs a fun id js => ?_
  unfold JobState.promotedBy
  split
  · rename_i hplace
    split_ifs <;> simp [JobState.leaseEntry, hplace]
  · rfl

end Alone

end Image

section Represents

variable [Prost] {J J' : String → Option JobState} {rows rows' inflight inflight' : Keyspace}
  {index index' : TimerIndex}

omit [Prost] in
/-- The scheduled index depends on the scheduled jobs only. -/
theorem ScheduledRepr.index_eq (h : ScheduledRepr J rows index)
    (h' : ScheduledRepr J' rows' index')
    (hJ : rowsOf JobState.scheduledEntry J = rowsOf JobState.scheduledEntry J') :
    index = index' :=
  h.counted.ext h'.counted (h.entries.ext (hJ ▸ h'.entries))

/-- The lease index depends on the leased jobs only. -/
theorem LeaseRepr.index_eq (h : LeaseRepr J inflight rows index)
    (h' : LeaseRepr J' inflight' rows' index')
    (hJ : rowsOf JobState.leaseEntry J = rowsOf JobState.leaseEntry J') : index = index' :=
  h.counted.ext h'.counted (h.entries.ext (hJ ▸ h'.entries))

/-- The index of the dead letters depends on the dead jobs only. -/
theorem DeadRepr.index_eq (h : DeadRepr J rows index) (h' : DeadRepr J' rows' index')
    (hJ : rowsOf JobState.deadEntry J = rowsOf JobState.deadEntry J') : index = index' :=
  h.counted.ext h'.counted (h.entries.ext (hJ ▸ h'.entries))

end Represents

end Sepp
