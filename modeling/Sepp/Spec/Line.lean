import Mathlib.Data.List.Sort
import Sepp.Library.Realize
import Sepp.Spec.Event
import Sepp.Spec.Lookup
import Sepp.Wire.Order

/-!
# The line of a queue

The ready jobs of a queue wait in line: their keys, in byte order. A lease takes a job out of its
line and leaves the others where they are.

## Main definitions

* `Job.readyKey` — the place in line of a job that was delivered.
* `Image.Line` — the ready keys that start with a prefix, in byte order.

## Main results

* `Represents.exists_line` — the index holds the line.
* `Image.Line.of_leases` — the line after some leases.
-/

open Std

namespace Sepp

/-- The place in line of a job, as it is delivered. -/
def Job.readyKey [Prost] (job : Job) : ReadyKey where
  queue := job.queue
  priority := job.priority
  enqueuedAt := (job.enqueuedAt.map timestampToMillis).getD 0
  jobId := job.id

/-- The keys of the ready jobs that start with `start`, in byte order. -/
structure Image.Line (a : Image) (start : Bytes) (keys : List Bytes) : Prop where
  sorted : keys.Pairwise fun key key' => compare key key' = .lt
  mem_iff : ∀ key, key ∈ keys ↔ start <+: key ∧
    ∃ id js attempt, a.jobs id = some js ∧ js.place = .ready attempt ∧ key = js.readyKey id

section Line

variable [Prost] {a a' : Image} {rows : Rows} {idx : Indexes} {start key : Bytes}
  {line line' : List Bytes}

theorem JobState.readyKey_deliveredJob (js : JobState) (id : String) (attempt : UInt32)
    (expires : Int64) :
    (js.deliveredJob id attempt expires).readyKey.encode = js.readyKey id := by
  rw [JobState.readyKey, Job.readyKey]
  congr 1
  exact congrArg (fun t => (⟨_, _, t, id⟩ : ReadyKey)) (js.storedJob_enqueuedAt id)

omit [Prost] in
/-- A ready key that starts with the prefix of a queue is a key of that queue. -/
theorem queue_eq_of_isPrefix {queue : String} (hq : FitsPrefix queue) {js : JobState} {id : String}
    (h : queuePrefix queue <+: js.readyKey id) : js.content.queue.1 = queue := by
  obtain ⟨t, ht⟩ := h
  have hread := readQueue_append t hq
  rw [ht, JobState.readyKey, ReadyKey.readQueue_encode js.content.queue.2] at hread
  exact Option.some.inj hread

/-- The keys of the index that start with `start` are the line. -/
theorem Represents.exists_line (h : Represents a rows idx) (start : Bytes) :
    ∃ line, a.Line start line := by
  refine ⟨(idx.ready.keys.toList.map Prod.fst).filter (start.isPrefixOf ·), ?_, fun key => ?_⟩
  · refine List.Pairwise.filter _ (List.pairwise_map.mpr ?_)
    exact idx.ready.keys.ordered_keys_toList
  · rw [List.mem_filter, List.isPrefixOf_iff_prefix, and_comm]
    refine and_congr_right fun _ => ?_
    constructor
    · intro hmem
      obtain ⟨⟨_, attempt⟩, hentry, rfl⟩ := List.mem_map.mp hmem
      obtain ⟨id, js, hJ, hp, hkey⟩ :=
        h.jobs.of_ready_entry (ExtTreeMap.mem_toList_iff_getElem?_eq_some.mp hentry)
      exact ⟨id, js, attempt, hJ, hp, hkey⟩
    · rintro ⟨id, js, attempt, hJ, hp, rfl⟩
      have hget := h.jobs.get_ready_entry hJ hp
      exact List.mem_map.mpr ⟨(_, attempt), ExtTreeMap.mem_toList_iff_getElem?_eq_some.mpr hget, rfl⟩

omit [Prost] in
instance : Std.Irrefl fun key key' : Bytes => compare key key' = .lt where
  irrefl key h := by
    rw [ReflOrd.compare_self] at h
    cases h

omit [Prost] in
instance : Std.Antisymm fun key key' : Bytes => compare key key' = .lt where
  antisymm key key' h h' := by
    have hswap : compare key key' = (compare key' key).swap := OrientedCmp.eq_swap
    rw [hswap, h'] at h
    cases h

omit [Prost] in
/-- The least key is the first in line. -/
theorem Image.Line.eq_cons (h : a.Line start line) (hmem : key ∈ line)
    (hleast : ∀ key' ∈ line, (compare key key').isLE) :
    line = key :: line.filter (· ≠ key) := by
  have hsorted : (key :: line.filter (· ≠ key)).Pairwise fun key key' => compare key key' = .lt := by
    refine List.pairwise_cons.mpr ⟨fun key' hkey' => ?_, h.sorted.filter _⟩
    obtain ⟨hkey', hne⟩ := List.mem_filter.mp hkey'
    have hle := hleast key' hkey'
    cases hcmp : compare key key' with
    | lt => rfl
    | eq => exact absurd (LawfulEqOrd.eq_of_compare hcmp).symm (of_decide_eq_true hne)
    | gt =>
      rw [hcmp] at hle
      cases hle
  refine h.sorted.eq_of_mem_iff hsorted fun key' => ?_
  rw [List.mem_cons, List.mem_filter]
  by_cases heq : key' = key
  · simp [heq, hmem]
  · simp [heq]

/-- A lease takes its job out of the line. -/
theorem Step.line_of_lease {job : Job} {expires : Int64} (hstep : Step a (.lease job expires) a')
    (h : a.Line start line) : a'.Line start (line.filter (· ≠ job.readyKey.encode)) := by
  cases hstep with
  | @lease id js attempt _ hJ hp =>
    rw [JobState.readyKey_deliveredJob]
    refine ⟨h.sorted.filter _, fun key => ?_⟩
    rw [List.mem_filter, h.mem_iff, and_assoc]
    refine and_congr_right fun _ => ?_
    constructor
    · rintro ⟨⟨id', js', attempt', hJ', hp', rfl⟩, hne⟩
      have hid : id' ≠ id := by
        rintro rfl
        rw [Option.some.inj (hJ.symm.trans hJ')] at hne
        simp at hne
      exact ⟨id', js', attempt', by rwa [Image.setJob_jobs, Function.update_of_ne hid], hp', rfl⟩
    · rintro ⟨id', js', attempt', hJ', hp', rfl⟩
      rw [Image.setJob_jobs] at hJ'
      by_cases hid : id' = id
      · rw [hid, Function.update_self, Option.some.injEq] at hJ'
        rw [← hJ'] at hp'
        cases hp'
      · rw [Function.update_of_ne hid] at hJ'
        refine ⟨⟨id', js', attempt', hJ', hp', rfl⟩, decide_eq_true fun heq => hid ?_⟩
        have hjob := congrArg readyJob heq
        rw [readyJob_readyKey, readyJob_readyKey] at hjob
        exact Option.some.inj hjob

/-- Leases take their jobs out of the line. -/
theorem Image.Line.of_leases {jobs : List Job} {expires : Int64}
    (htrace : Trace Step a (jobs.map (Event.lease · expires)) a') (h : a.Line start line) :
    a'.Line start (line.filter (· ∉ jobs.map fun job => job.readyKey.encode)) := by
  induction jobs generalizing a line with
  | nil =>
    cases htrace
    simpa using h
  | cons job jobs ih =>
    cases htrace with
    | cons hstep hrest =>
      have hline := ih hrest (hstep.line_of_lease h)
      rw [List.filter_filter] at hline
      simpa [Bool.and_comm] using hline

end Line

end Sepp
