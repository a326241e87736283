import Sepp.Library.PrefixRange
import Sepp.Library.Tally
import Sepp.Wire.Keys

/-!
# In-memory indexes

`ReadyIndex`, `TimerIndex` and `Indexes` of `src/storage.rs`: the committer's copy of the ready
and timer keys, each with a count of its keys by queue. A ready key carries its queue; a timer key
does not, so the timer index stores the owning queue as the value of the key. A `HashMap` or a
`BTreeMap` is an ordered map: nothing in the source depends on a hash map's iteration order.
-/

open Std

namespace Sepp

/-- `HashMap<String, u64>`. -/
abbrev Counters := ExtTreeMap String ℕ compare

/-- `bump_queue`. -/
def bumpQueue (map : Counters) (queue : String) : Counters := Tally.bump map queue

theorem getD_bumpQueue (map : Counters) (queue q : String) :
    (bumpQueue map queue)[q]?.getD 0 = map[q]?.getD 0 + if queue = q then 1 else 0 := by
  rw [bumpQueue, Tally.bump, ExtTreeMap.getElem?_insert_eq]
  split_ifs with hq
  · rw [hq, Option.getD_some]
  · rw [Nat.add_zero]

/-- `drop_queue`. -/
def dropQueue (map : Counters) (queue : String) : Counters := Tally.drop map queue

/-! ### The ready index -/

/-- `ReadyIndex`: the ready keys in the order of delivery, each with its attempt, and how many there
are for each queue. -/
structure ReadyIndex where
  keys : ExtTreeMap Bytes UInt32 compare := ∅
  byQueue : Counters := ∅

namespace ReadyIndex

/-- `ReadyIndex::insert`: only a new key is counted. -/
def insert (idx : ReadyIndex) (readyKey : Bytes) (attempt : UInt32) : ReadyIndex where
  keys := idx.keys.insert readyKey attempt
  byQueue :=
    match idx.keys[readyKey]?, readQueue readyKey with
    | none, some queue => bumpQueue idx.byQueue queue
    | _, _ => idx.byQueue

/-- The index without the key, and the attempt stored under it. -/
def remove (idx : ReadyIndex) (readyKey : Bytes) : Option UInt32 × ReadyIndex :=
  match idx.keys[readyKey]? with
  | none => (none, idx)
  | some attempt =>
    (some attempt,
      { keys := idx.keys.erase readyKey
        byQueue :=
          match readQueue readyKey with
          | some queue => dropQueue idx.byQueue queue
          | none => idx.byQueue })

/-- `keys.range(queue_prefix..).next()`: the least entry whose key is not below `start`. -/
def firstFrom (idx : ReadyIndex) (start : Bytes) : Option (Bytes × UInt32) :=
  idx.keys.toList.find? fun entry => (compare start entry.1).isLE

/-- Removes the least key that starts with `queuePrefix`. -/
def popFront (idx : ReadyIndex) (start : Bytes) : Option ((Bytes × UInt32) × ReadyIndex) :=
  match idx.firstFrom start with
  | none => none
  | some (key, _) =>
    if start.isPrefixOf key then
      match idx.remove key with
      | (some attempt, idx') => some ((key, attempt), idx')
      | (none, _) => none
    else none

/-- The attempt that the key is ready on. -/
def attempt (idx : ReadyIndex) (readyKey : Bytes) : Option UInt32 := idx.keys[readyKey]?

end ReadyIndex

/-! ### Timer indexes -/

/-- Keys in deadline order, each with its owning queue. -/
structure TimerIndex where
  keys : ExtTreeMap Bytes String compare := ∅
  byQueue : Counters := ∅

namespace TimerIndex

/-- `TimerIndex::insert`: only a new key is counted. -/
def insert (idx : TimerIndex) (key : Bytes) (queue : String) : TimerIndex where
  keys := idx.keys.insert key queue
  byQueue :=
    match idx.keys[key]? with
    | none => bumpQueue idx.byQueue queue
    | some _ => idx.byQueue

/-- The index without the key, and the queue that owned it. -/
def remove (idx : TimerIndex) (key : Bytes) : Option String × TimerIndex :=
  match idx.keys[key]? with
  | none => (none, idx)
  | some queue =>
    (some queue, { keys := idx.keys.erase key, byQueue := dropQueue idx.byQueue queue })

/-- Removes the first key, if its deadline is not after `now`. -/
def popDue (idx : TimerIndex) (now : Int64) : Option ((Bytes × String) × TimerIndex) :=
  match idx.keys.toList.head? with
  | none => none
  | some (key, _) =>
    if now < deadlineOf key then none
    else
      match idx.remove key with
      | (some queue, idx') => some ((key, queue), idx')
      | (none, _) => none

/-- The deadline of the first key. -/
def earliest (idx : TimerIndex) : Option Int64 :=
  idx.keys.toList.head?.map fun entry => deadlineOf entry.1

/-- `iter_oldest`. -/
def iterOldest (idx : TimerIndex) : List (Bytes × String) := idx.keys.toList

/-- `keys.iter().filter(|(_, q)| q == queue).take(n).map(|(k, _)| k.clone()).collect()`. -/
def ownedKeys (idx : TimerIndex) (queue : String) (n : ℕ) : List Bytes :=
  ((idx.keys.toList.filter fun entry => entry.2 == queue).take n).map Prod.fst

end TimerIndex

/-! ### All indexes -/

/-- `QueueDepthCounts`. -/
structure QueueDepthCounts where
  ready : ℕ
  scheduled : ℕ
  inflight : ℕ
  deadLetter : ℕ
deriving DecidableEq, Repr

/-- `Indexes`: what the committer keeps in memory of the ready jobs and of all deadlines, rebuilt
from the rows at startup. -/
structure Indexes where
  ready : ReadyIndex := {}
  scheduled : TimerIndex := {}
  leases : TimerIndex := {}
  dedupTimers : TimerIndex := {}
  deadLetter : TimerIndex := {}
  /-- Queues an admin delete is draining, with the deadline of the tombstone. -/
  closing : ExtTreeMap String Int64 compare := ∅

namespace Indexes

/-- The jobs of the queue that are ready, scheduled or leased, which `max_queue_depth` bounds. -/
def liveDepth (idx : Indexes) (queue : String) : ℕ :=
  idx.ready.byQueue[queue]?.getD 0 + idx.scheduled.byQueue[queue]?.getD 0 +
    idx.leases.byQueue[queue]?.getD 0

/-- How many jobs of the queue are in each state. -/
def depthCounts (idx : Indexes) (queue : String) : QueueDepthCounts where
  ready := idx.ready.byQueue[queue]?.getD 0
  scheduled := idx.scheduled.byQueue[queue]?.getD 0
  inflight := idx.leases.byQueue[queue]?.getD 0
  deadLetter := idx.deadLetter.byQueue[queue]?.getD 0

/-- `closing.get(queue).is_some_and(|&deadline| deadline > now)`. -/
def isClosing (idx : Indexes) (queue : String) (now : Int64) : Bool :=
  idx.closing[queue]?.any fun deadline => now < deadline

end Indexes

/-! ### The counts are true -/

/-- The queue a ready key is counted for. -/
def readyOwner (key : Bytes) (_ : UInt32) : Option String := readQueue key

/-- The queue a timer key is counted for. -/
def timerOwner (_ : Bytes) (queue : String) : Option String := some queue

/-- The counts of a ready index are those of its keys. -/
def ReadyIndex.Counted (idx : ReadyIndex) : Prop := Tally readyOwner idx.keys idx.byQueue

/-- The counts of a timer index are those of its keys. -/
def TimerIndex.Counted (idx : TimerIndex) : Prop := Tally timerOwner idx.keys idx.byQueue

namespace ReadyIndex

theorem counted_empty : Counted {} := Tally.empty

/-- A counted index is determined by its keys. -/
theorem Counted.ext {idx idx' : ReadyIndex} (h : idx.Counted) (h' : idx'.Counted)
    (hkeys : idx.keys = idx'.keys) : idx = idx' := by
  cases idx
  cases idx'
  obtain rfl : _ = _ := hkeys
  rw [mk.injEq]
  exact ⟨rfl, Tally.ext h h'⟩

theorem Counted.insert {idx : ReadyIndex} (h : idx.Counted) (key : Bytes) (attempt : UInt32) :
    (idx.insert key attempt).Counted := by
  unfold Counted ReadyIndex.insert
  cases hk : idx.keys[key]? with
  | some a => exact Tally.insert_same h hk rfl
  | none =>
    cases hq : readQueue key with
    | some queue => exact Tally.insert h hk hq
    | none => exact Tally.insert_unowned h hk hq

theorem keys_remove (idx : ReadyIndex) (key : Bytes) :
    (idx.remove key).2.keys = idx.keys.erase key := by
  unfold remove
  cases hk : idx.keys[key]? with
  | none => exact (ExtTreeMap.erase_of_getElem?_eq_none hk).symm
  | some a => rfl

theorem Counted.remove {idx : ReadyIndex} (h : idx.Counted) (key : Bytes) :
    (idx.remove key).2.Counted := by
  unfold ReadyIndex.remove
  cases hk : idx.keys[key]? with
  | none => exact h
  | some a =>
    cases hq : readQueue key with
    | some queue => exact Tally.erase h hk hq
    | none => exact Tally.erase_unowned h hk hq

end ReadyIndex

namespace TimerIndex

theorem counted_empty : Counted {} := Tally.empty

/-- A counted index is determined by its keys. -/
theorem Counted.ext {idx idx' : TimerIndex} (h : idx.Counted) (h' : idx'.Counted)
    (hkeys : idx.keys = idx'.keys) : idx = idx' := by
  cases idx
  cases idx'
  obtain rfl : _ = _ := hkeys
  rw [mk.injEq]
  exact ⟨rfl, Tally.ext h h'⟩

/-- Inserting a key keeps the counts, unless the key is there under another owner. -/
theorem Counted.insert {idx : TimerIndex} (h : idx.Counted) {key : Bytes} {queue : String}
    (hk : ∀ owner, idx.keys[key]? = some owner → owner = queue) :
    (idx.insert key queue).Counted := by
  unfold Counted TimerIndex.insert
  cases hget : idx.keys[key]? with
  | some owner => exact Tally.insert_same h hget (by rw [hk owner hget])
  | none => exact Tally.insert h hget rfl

theorem keys_remove (idx : TimerIndex) (key : Bytes) :
    (idx.remove key).2.keys = idx.keys.erase key := by
  unfold remove
  cases hk : idx.keys[key]? with
  | none => exact (ExtTreeMap.erase_of_getElem?_eq_none hk).symm
  | some a => rfl

theorem Counted.remove {idx : TimerIndex} (h : idx.Counted) (key : Bytes) :
    (idx.remove key).2.Counted := by
  unfold TimerIndex.remove
  cases hk : idx.keys[key]? with
  | none => exact h
  | some queue => exact Tally.erase h hk rfl

theorem getElem?_of_mem_ownedKeys {idx : TimerIndex} {queue : String} {n : ℕ} {key : Bytes}
    (h : key ∈ idx.ownedKeys queue n) : idx.keys[key]? = some queue := by
  obtain ⟨⟨k, owner⟩, hmem, rfl⟩ := List.mem_map.mp h
  obtain ⟨hlist, howner⟩ := List.mem_filter.mp (List.mem_of_mem_take hmem)
  rw [ExtTreeMap.mem_toList_iff_getElem?_eq_some] at hlist
  exact hlist.trans (congrArg some (eq_of_beq howner))

theorem nodup_ownedKeys (idx : TimerIndex) (queue : String) (n : ℕ) :
    (idx.ownedKeys queue n).Nodup := by
  have hord : (idx.keys.toList.map Prod.fst).Nodup := by
    rw [ExtTreeMap.map_fst_toList_eq_keys]
    exact ExtTreeMap.nodup_keys
  exact hord.sublist (((List.take_sublist _ _).trans List.filter_sublist).map _)

theorem length_ownedKeys_le (idx : TimerIndex) (queue : String) (n : ℕ) :
    (idx.ownedKeys queue n).length ≤ n := by
  rw [ownedKeys, List.length_map]
  exact List.length_take_le _ _

/-- A list of keys that falls short has all keys of the queue. -/
theorem mem_ownedKeys {idx : TimerIndex} {queue : String} {n : ℕ} {key : Bytes}
    (hkey : idx.keys[key]? = some queue) (hshort : (idx.ownedKeys queue n).length < n) :
    key ∈ idx.ownedKeys queue n := by
  have hmem : (key, queue) ∈ idx.keys.toList.filter fun entry => entry.2 == queue :=
    List.mem_filter.mpr
      ⟨ExtTreeMap.mem_toList_iff_getElem?_eq_some.mpr hkey, beq_self_eq_true queue⟩
  rw [ownedKeys, List.length_map, List.length_take] at hshort
  rw [ownedKeys, List.take_of_length_le (by omega)]
  exact List.mem_map_of_mem hmem

/-- A popped key was in the index and due, and what is left is the index without it. -/
theorem popDue_eq_some {idx idx' : TimerIndex} {now : Int64} {key : Bytes} {queue : String}
    (h : idx.popDue now = some ((key, queue), idx')) :
    idx.keys[key]? = some queue ∧ ¬ now < deadlineOf key ∧ idx' = (idx.remove key).2 := by
  unfold popDue at h
  split at h
  · cases h
  · rename_i k _ hk
    split_ifs at h with hdue
    split at h
    · rename_i q rest hrem
      obtain ⟨⟨rfl, rfl⟩, rfl⟩ : (k = key ∧ q = queue) ∧ rest = idx' := by simpa using h
      refine ⟨?_, hdue, by rw [hrem]⟩
      unfold remove at hrem
      split at hrem
      · cases hrem
      · rename_i owner howner
        rw [howner]
        exact congrArg Prod.fst hrem
    · cases h

/-- No key of the index is below the popped key. -/
theorem isLE_of_popDue {idx idx' : TimerIndex} {now : Int64} {key key' : Bytes}
    {queue queue' : String} (h : idx.popDue now = some ((key, queue), idx'))
    (hk : idx.keys[key']? = some queue') : (compare key key').isLE := by
  unfold popDue at h
  split at h
  · cases h
  · rename_i k _ hhead
    split_ifs at h with hdue
    split at h
    · obtain ⟨⟨rfl, -⟩, -⟩ := Prod.mk.inj (Option.some.inj h) |>.imp_left Prod.mk.inj
      exact ExtTreeMap.isLE_of_head?_toList hhead hk
    · cases h

/-- Nothing is popped only if the index is empty or its first key is not due. -/
theorem lt_of_popDue_eq_none {idx : TimerIndex} {now : Int64} (h : idx.popDue now = none)
    {key : Bytes} {queue : String} (hk : idx.keys[key]? = some queue) :
    ∃ first owner, idx.keys[first]? = some owner ∧ (compare first key).isLE ∧
      now < deadlineOf first := by
  unfold popDue at h
  split at h
  · rename_i hhead
    have hmem := ExtTreeMap.mem_toList_iff_getElem?_eq_some.mpr hk
    rw [List.head?_eq_none_iff.mp hhead] at hmem
    cases hmem
  · rename_i first owner hhead
    have hfirst := ExtTreeMap.mem_toList_iff_getElem?_eq_some.mp (List.mem_of_head? hhead)
    split_ifs at h with hdue
    · exact ⟨first, owner, hfirst, ExtTreeMap.isLE_of_head?_toList hhead hk, hdue⟩
    · simp only [remove, hfirst] at h
      cases h

end TimerIndex

/-- Nothing is popped only if no key starts with the prefix. -/
theorem ReadyIndex.popFront_eq_none {idx : ReadyIndex} {start : Bytes}
    (h : idx.popFront start = none) {key : Bytes} {attempt : UInt32}
    (hk : idx.keys[key]? = some attempt) : ¬ start <+: key := by
  intro hpre
  obtain ⟨k₀, v₀, hfind, hk₀, hpre₀⟩ := ExtTreeMap.find?_isPrefix hk hpre
  rw [popFront, firstFrom, hfind] at h
  simp only [List.isPrefixOf_iff_prefix.mpr hpre₀, if_true, remove, hk₀] at h
  cases h

/-- The key that is popped is the least that starts with `start`. -/
theorem ReadyIndex.popFront_least {idx idx' : ReadyIndex} {start key : Bytes} {attempt : UInt32}
    (h : idx.popFront start = some ((key, attempt), idx')) {key' : Bytes} {attempt' : UInt32}
    (hk : idx.keys[key']? = some attempt') (hpre : start <+: key') : (compare key key').isLE := by
  unfold popFront at h
  split at h
  · cases h
  · rename_i k a hfirst
    split_ifs at h
    split at h
    · obtain rfl : k = key := congrArg (·.1.1) (Option.some.inj h)
      exact ExtTreeMap.isLE_of_find?_toList hfirst hk (List.isLE_compare_of_isPrefix hpre)
    · cases h

theorem ReadyIndex.popFront_eq_some {idx idx' : ReadyIndex} {start key : Bytes} {attempt : UInt32}
    (h : idx.popFront start = some ((key, attempt), idx')) :
    idx.keys[key]? = some attempt ∧ start <+: key ∧ idx' = (idx.remove key).2 := by
  unfold popFront at h
  split at h
  · cases h
  · rename_i k a hk
    split_ifs at h with hpre
    split at h
    · rename_i b rest hrem
      obtain ⟨⟨rfl, rfl⟩, rfl⟩ : (k = key ∧ b = attempt) ∧ rest = idx' := by simpa using h
      refine ⟨?_, List.isPrefixOf_iff_prefix.mp hpre, by rw [hrem]⟩
      unfold remove at hrem
      split at hrem
      · cases hrem
      · rename_i c hc
        rw [hc]
        exact congrArg Prod.fst hrem
    · cases h

end Sepp
