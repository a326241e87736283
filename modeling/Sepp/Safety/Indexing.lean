import Sepp.Library.Realize
import Sepp.Store.Indexes
import Sepp.Wire.Codec
import Sepp.Wire.Order

/-!
# Keys in order, and indexes that count

The byte order of the keys is the order that the operations rely on: the ready keys of a queue are a
range in the order of reservation, and the keys of timers are in the order of their times. The
indexes keep a count of their keys by queue, which stays true in every sequence of operations on
them.

## Main definitions

* `ReadyKey.InRange` — the keys that are built.
* `ReadyIndexCall`, `TimerIndexCall` — operations on an index.
* `TimerIndex.Calls` — the sequences of operations in which a key does not change its owner.
* `dropQueueChecked` — `drop_queue` with a decrement that may underflow.

## Main results

* `key_order`.
* `index_counters`.
-/

open Std

namespace Sepp

/-! ### The order of keys -/

/-- The fields of a ready key that is built. -/
structure ReadyKey.InRange (k : ReadyKey) : Prop where
  queue : FitsPrefix k.queue
  priority : k.priority ≤ 9
  enqueuedAt : 0 ≤ k.enqueuedAt.toInt

theorem ReadyKey.isPrefix_encode_iff {queue : String} (hq : FitsPrefix queue) {k : ReadyKey}
    (hk : k.InRange) : queuePrefix queue <+: k.encode ↔ k.queue = queue := by
  constructor
  · rintro ⟨rest, hrest⟩
    have hread := readQueue_append rest hq
    rw [hrest, readQueue_encode hk.queue] at hread
    exact Option.some.inj hread
  · rintro rfl
    exact ⟨_, rfl⟩

/-- The key that `pop_front` removes. -/
def ReadyIndex.front (idx : ReadyIndex) (queue : String) : Option Bytes :=
  (idx.popFront (queuePrefix queue)).map fun popped => popped.1.1

/-- The key that is removed is the least that starts with the queue. -/
theorem ReadyIndex.front_eq_some_iff {idx : ReadyIndex} {queue : String} {key : Bytes} :
    idx.front queue = some key ↔ key ∈ idx.keys ∧ queuePrefix queue <+: key ∧
      ∀ key' ∈ idx.keys, queuePrefix queue <+: key' → (compare key key').isLE := by
  constructor
  · intro h
    obtain ⟨⟨⟨key, attempt⟩, idx'⟩, hpop, rfl⟩ := Option.map_eq_some_iff.mp h
    obtain ⟨hkey, hpre, -⟩ := ReadyIndex.popFront_eq_some hpop
    refine ⟨ExtTreeMap.mem_iff_exists.mpr ⟨attempt, hkey⟩, hpre, fun key' hkey' hpre' => ?_⟩
    obtain ⟨attempt', hkey'⟩ := ExtTreeMap.mem_iff_exists.mp hkey'
    exact ReadyIndex.popFront_least hpop hkey' hpre'
  · rintro ⟨hkey, hpre, hleast⟩
    obtain ⟨attempt, hget⟩ := ExtTreeMap.mem_iff_exists.mp hkey
    cases hpop : idx.popFront (queuePrefix queue) with
    | none => exact absurd hpre (ReadyIndex.popFront_eq_none hpop hget)
    | some popped =>
      obtain ⟨⟨key₀, attempt₀⟩, idx'⟩ := popped
      obtain ⟨hkey₀, hpre₀, -⟩ := ReadyIndex.popFront_eq_some hpop
      have hle := ReadyIndex.popFront_least hpop hget hpre
      have hge := hleast key₀ (ExtTreeMap.mem_iff_exists.mpr ⟨attempt₀, hkey₀⟩) hpre₀
      rw [front, hpop]
      exact congrArg some (LawfulEqOrd.eq_of_compare (OrientedCmp.isLE_antisymm hle hge))

/-- Nothing is removed exactly if no key starts with the queue. -/
theorem ReadyIndex.front_eq_none_iff {idx : ReadyIndex} {queue : String} :
    idx.front queue = none ↔ ∀ key ∈ idx.keys, ¬ queuePrefix queue <+: key := by
  rw [front, Option.map_eq_none_iff]
  constructor
  · intro hpop key hkey
    obtain ⟨attempt, hget⟩ := ExtTreeMap.mem_iff_exists.mp hkey
    exact ReadyIndex.popFront_eq_none hpop hget
  · intro hnone
    cases hpop : idx.popFront (queuePrefix queue) with
    | none => rfl
    | some popped =>
      obtain ⟨⟨key, attempt⟩, idx'⟩ := popped
      obtain ⟨hkey, hpre, -⟩ := ReadyIndex.popFront_eq_some hpop
      exact absurd hpre (hnone key (ExtTreeMap.mem_iff_exists.mpr ⟨attempt, hkey⟩))

/-- The byte order of keys: the ready keys of a queue are in the order of reservation and are a
range of their own, and the keys of timers are in the order of their times. -/
theorem key_order :
    (∀ k k' : ReadyKey, k.InRange → k'.InRange → k.queue = k'.queue →
      compare k.encode k'.encode = k.order k') ∧
    (∀ k k' : TimerKey, 0 ≤ k.deadline.toInt → 0 ≤ k'.deadline.toInt →
      (compare k.encode k'.encode).isLE → k.deadline ≤ k'.deadline) ∧
    (∀ k k' : DedupTimerKey, 0 ≤ k.deadline.toInt → 0 ≤ k'.deadline.toInt →
      (compare k.encode k'.encode).isLE → k.deadline ≤ k'.deadline) ∧
    (∀ k k' : DeadLetterKey, 0 ≤ k.failedAt.toInt → 0 ≤ k'.failedAt.toInt →
      (compare k.encode k'.encode).isLE → k.failedAt ≤ k'.failedAt) ∧
    ∀ queue, FitsPrefix queue →
      (∀ k : ReadyKey, k.InRange → (queuePrefix queue <+: k.encode ↔ k.queue = queue)) ∧
      ∀ idx : ReadyIndex, (∀ key ∈ idx.keys, ∃ k : ReadyKey, k.InRange ∧ key = k.encode) →
        (∀ k : ReadyKey, k.InRange → (idx.front queue = some k.encode ↔
          k.encode ∈ idx.keys ∧ k.queue = queue ∧ ∀ k' : ReadyKey, k'.InRange →
            k'.encode ∈ idx.keys → k'.queue = queue → (compare k.encode k'.encode).isLE)) ∧
        (idx.front queue = none ↔
          ∀ k : ReadyKey, k.InRange → k.encode ∈ idx.keys → k.queue ≠ queue) := by
  have htimes : ∀ {t t' : Int64} {rest rest' : Bytes}, 0 ≤ t.toInt → 0 ≤ t'.toInt →
      (compare (KeyWriter.i64 t ++ rest) (KeyWriter.i64 t' ++ rest')).isLE → t ≤ t' := by
    intro t t' rest rest' ht ht' hle
    have hdeadline := StartsWithTime.deadlineOf_le ⟨t, rest, ht, rfl⟩ ⟨t', rest', ht', rfl⟩ hle
    rwa [deadlineOf_append, deadlineOf_append] at hdeadline
  refine ⟨fun k k' hk hk' hqueue => ReadyKey.compare_encode hqueue hk.priority hk'.priority
    hk.enqueuedAt hk'.enqueuedAt, fun k k' => htimes, fun k k' => htimes, fun k k' => htimes,
    fun queue hq => ⟨fun k hk => ReadyKey.isPrefix_encode_iff hq hk, fun idx hkeys => ⟨?_, ?_⟩⟩⟩
  · intro k hk
    rw [ReadyIndex.front_eq_some_iff, ReadyKey.isPrefix_encode_iff hq hk]
    refine and_congr_right fun _ => and_congr_right fun _ => ⟨?_, ?_⟩
    · intro hleast k' hk' hmem hqueue
      exact hleast _ hmem ((ReadyKey.isPrefix_encode_iff hq hk').mpr hqueue)
    · intro hleast key' hmem hpre
      obtain ⟨k', hk', rfl⟩ := hkeys key' hmem
      exact hleast k' hk' hmem ((ReadyKey.isPrefix_encode_iff hq hk').mp hpre)
  · rw [ReadyIndex.front_eq_none_iff]
    constructor
    · intro hnone k hk hmem hqueue
      exact hnone _ hmem ((ReadyKey.isPrefix_encode_iff hq hk).mpr hqueue)
    · intro hnone key hmem hpre
      obtain ⟨k, hk, rfl⟩ := hkeys key hmem
      exact hnone k hk hmem ((ReadyKey.isPrefix_encode_iff hq hk).mp hpre)

/-- A job that comes first, one that is older, and one of a queue with a shorter name. -/
def urgentKey : ReadyKey := ⟨"emails", 9, 2000, "b"⟩

@[inherit_doc urgentKey]
def olderKey : ReadyKey := ⟨"emails", 5, 1000, "a"⟩

@[inherit_doc urgentKey]
def shorterKey : ReadyKey := ⟨"email", 9, 0, "c"⟩

/-- The index of the three. -/
def threeKeys : ReadyIndex :=
  ((ReadyIndex.insert {} olderKey.encode 1).insert shorterKey.encode 1).insert urgentKey.encode 1

/-- The job of higher priority comes first, although it is younger. -/
theorem key_order_threeKeys :
    compare urgentKey.encode olderKey.encode = .lt ∧
      threeKeys.front "emails" = some urgentKey.encode := by
  have hurgent : urgentKey.InRange := ⟨by decide, by decide, by decide⟩
  have holder : olderKey.InRange := ⟨by decide, by decide, by decide⟩
  have hshorter : shorterKey.InRange := ⟨by decide, by decide, by decide⟩
  have hmem : ∀ key ∈ threeKeys.keys,
      key = urgentKey.encode ∨ key = shorterKey.encode ∨ key = olderKey.encode := by
    intro key hkey
    simp only [threeKeys, ReadyIndex.insert, ExtTreeMap.mem_insert, LawfulEqCmp.compare_eq_iff_eq,
      ExtTreeMap.not_mem_empty, or_false] at hkey
    tauto
  obtain ⟨horder, -, -, -, hqueues⟩ := key_order
  obtain ⟨-, hfront⟩ := hqueues "emails" (by decide)
  refine ⟨(horder _ _ hurgent holder rfl).trans (by decide), ?_⟩
  refine ((hfront threeKeys fun key hkey => ?_).1 urgentKey hurgent).mpr ⟨?_, rfl, ?_⟩
  · rcases hmem key hkey with rfl | rfl | rfl
    · exact ⟨_, hurgent, rfl⟩
    · exact ⟨_, hshorter, rfl⟩
    · exact ⟨_, holder, rfl⟩
  · exact ExtTreeMap.mem_insert_self
  · intro k hk hkey hqueue
    rcases hmem _ hkey with heq | heq | heq
    · rw [heq, ReflOrd.compare_self]
      rfl
    · have hread := congrArg readQueue heq
      rw [ReadyKey.readQueue_encode hk.queue, ReadyKey.readQueue_encode hshorter.queue,
        hqueue] at hread
      exact absurd (Option.some.inj hread) (by decide)
    · rw [heq, horder _ _ hurgent holder rfl]
      decide

/-! ### Counts -/

/-- `drop_queue` with a decrement that fails when it underflows. -/
def dropQueueChecked (map : Counters) (queue : String) : Option Counters :=
  match map[queue]? with
  | none => some map
  | some 0 => none
  | some (n + 1) => some (if n = 0 then map.erase queue else map.insert queue n)

/-- The operations on a ready index that change it. -/
inductive ReadyIndexCall where
  | insert (readyKey : Bytes) (attempt : UInt32)
  | remove (readyKey : Bytes)
  | popFront (queuePrefix : Bytes)

/-- The index after an operation. -/
def ReadyIndex.after (idx : ReadyIndex) : ReadyIndexCall → ReadyIndex
  | .insert readyKey attempt => idx.insert readyKey attempt
  | .remove readyKey => (idx.remove readyKey).2
  | .popFront start => ((idx.popFront start).map Prod.snd).getD idx

/-- The operations on a timer index that change it. -/
inductive TimerIndexCall where
  | insert (key : Bytes) (queue : String)
  | remove (key : Bytes)
  | popDue (now : Int64)

/-- The index after an operation. -/
def TimerIndex.after (idx : TimerIndex) : TimerIndexCall → TimerIndex
  | .insert key queue => idx.insert key queue
  | .remove key => (idx.remove key).2
  | .popDue now => ((idx.popDue now).map Prod.snd).getD idx

/-- A key that is there is inserted again only for the queue that owns it, and keys start with a
time that is not negative. -/
def TimerIndexCall.Keeps (idx : TimerIndex) : TimerIndexCall → Prop
  | insert key queue => (∀ owner, idx.keys[key]? = some owner → owner = queue) ∧ StartsWithTime key
  | remove _ | popDue _ => True

/-- Operations from one index to another. -/
def TimerIndex.Calls : TimerIndex → List TimerIndexCall → TimerIndex → Prop :=
  Trace fun idx call idx' => call.Keeps idx ∧ idx' = idx.after call

/-- True counts, none of which is zero or can underflow. -/
structure Counts (count : String → ℕ) (byQueue : Counters) : Prop where
  eq : ∀ queue : String, byQueue[queue]?.getD 0 = count queue
  pos : ∀ queue : String, byQueue[queue]? ≠ some 0
  drops : ∀ queue : String, dropQueueChecked byQueue queue = some (dropQueue byQueue queue)

theorem Counts.of_tally {β : Type} {own : Bytes → β → Option String}
    {keys : ExtTreeMap Bytes β compare} {byQueue : Counters} (h : Tally own keys byQueue) :
    Counts (fun queue => keys.toList.countP fun entry => own entry.1 entry.2 == some queue)
      byQueue := by
  have hpos : ∀ queue : String, byQueue[queue]? ≠ some 0 := by
    intro queue
    rw [h queue, Tally.stored]
    split_ifs with hzero
    · exact Option.some_ne_none _ ∘ Eq.symm
    · exact fun heq => hzero (Option.some.inj heq)
  refine ⟨fun queue => ?_, hpos, fun queue => ?_⟩
  · rw [h.getD_eq, Tally.count, ← ExtTreeMap.length_toList, ExtTreeMap.toList_filter,
      List.countP_eq_length_filter]
  · rw [dropQueueChecked, dropQueue, Tally.drop]
    cases hget : byQueue[queue]? with
    | none => rfl
    | some n =>
      cases n with
      | zero => exact absurd hget (hpos queue)
      | succ n => rfl

theorem ReadyIndex.Counted.after {idx : ReadyIndex} (h : idx.Counted) (call : ReadyIndexCall) :
    (idx.after call).Counted := by
  cases call with
  | insert key attempt => exact h.insert key attempt
  | remove key => exact h.remove key
  | popFront start =>
    rw [ReadyIndex.after]
    cases hpop : idx.popFront start with
    | none => exact h
    | some popped =>
      obtain ⟨⟨key, attempt⟩, idx'⟩ := popped
      obtain ⟨-, -, rfl⟩ := ReadyIndex.popFront_eq_some hpop
      exact h.remove key

theorem ReadyIndex.counted_foldl (calls : List ReadyIndexCall) :
    (calls.foldl ReadyIndex.after {}).Counted := by
  induction calls using List.reverseRecOn with
  | nil => exact counted_empty
  | append_singleton calls call ih =>
    rw [List.foldl_concat]
    exact ih.after call

/-- A counted index whose keys start with times that are not negative. -/
structure TimerIndex.Timed (idx : TimerIndex) : Prop where
  counted : idx.Counted
  times : ∀ key ∈ idx.keys, StartsWithTime key

namespace TimerIndex

variable {idx : TimerIndex}

theorem Timed.remove (h : idx.Timed) (key : Bytes) : (idx.remove key).2.Timed where
  counted := h.counted.remove key
  times key' hkey' := by
    rw [keys_remove, ExtTreeMap.mem_erase_iff] at hkey'
    exact h.times key' hkey'.1

theorem Timed.after (h : idx.Timed) {call : TimerIndexCall} (hcall : call.Keeps idx) :
    (idx.after call).Timed := by
  cases call with
  | insert key queue =>
    obtain ⟨howner, htime⟩ := hcall
    refine ⟨h.counted.insert howner, fun key' hkey' => ?_⟩
    rcases ExtTreeMap.mem_insert.mp hkey' with heq | hkey'
    · rw [← LawfulEqCmp.compare_eq_iff_eq.mp heq]
      exact htime
    · exact h.times key' hkey'
  | remove key => exact h.remove key
  | popDue now =>
    rw [TimerIndex.after]
    cases hpop : idx.popDue now with
    | none => exact h
    | some popped =>
      obtain ⟨⟨key, queue⟩, idx'⟩ := popped
      obtain ⟨-, -, rfl⟩ := popDue_eq_some hpop
      exact h.remove key

theorem Calls.timed {calls : List TimerIndexCall} (h : Calls {} calls idx) : idx.Timed := by
  refine Trace.preserves h (fun idx call idx' _ hstep hidx => ?_) ⟨counted_empty, ?_⟩
  · rw [hstep.2]
    exact hidx.after hstep.1
  · exact fun key hkey => absurd hkey ExtTreeMap.not_mem_empty

/-- The first key has the least deadline. -/
theorem Timed.earliest_eq_some_iff (h : idx.Timed) {deadline : Int64} :
    idx.earliest = some deadline ↔ (∃ key ∈ idx.keys, deadlineOf key = deadline) ∧
      ∀ key ∈ idx.keys, deadline ≤ deadlineOf key := by
  have hfirst : ∀ {first : Bytes} {owner : String}, idx.keys.toList.head? = some (first, owner) →
      first ∈ idx.keys ∧ ∀ key ∈ idx.keys, deadlineOf first ≤ deadlineOf key := by
    intro first owner hhead
    have hget := ExtTreeMap.mem_toList_iff_getElem?_eq_some.mp (List.mem_of_head? hhead)
    have hmem := ExtTreeMap.mem_iff_exists.mpr ⟨owner, hget⟩
    refine ⟨hmem, fun key hkey => ?_⟩
    obtain ⟨queue, hkey'⟩ := ExtTreeMap.mem_iff_exists.mp hkey
    exact (h.times first hmem).deadlineOf_le (h.times key hkey)
      (ExtTreeMap.isLE_of_head?_toList hhead hkey')
  rw [earliest, Option.map_eq_some_iff]
  constructor
  · rintro ⟨⟨first, owner⟩, hhead, rfl⟩
    obtain ⟨hmem, hleast⟩ := hfirst hhead
    exact ⟨⟨first, hmem, rfl⟩, hleast⟩
  · rintro ⟨⟨key, hkey, rfl⟩, hleast⟩
    obtain ⟨queue, hget⟩ := ExtTreeMap.mem_iff_exists.mp hkey
    cases hhead : idx.keys.toList.head? with
    | none =>
      have hmem := ExtTreeMap.mem_toList_iff_getElem?_eq_some.mpr hget
      rw [List.head?_eq_none_iff.mp hhead] at hmem
      exact absurd hmem List.not_mem_nil
    | some entry =>
      obtain ⟨hmem, hle⟩ := hfirst hhead
      exact ⟨entry, rfl, Int64.le_antisymm (hle key hkey) (hleast _ hmem)⟩

/-- A key is popped exactly when the least deadline is not after `now`, and it is a key with the
least deadline. -/
theorem popDue_of_earliest {now deadline : Int64} (h : idx.earliest = some deadline)
    (hdue : deadline ≤ now) :
    ∃ key queue, idx.keys[key]? = some queue ∧ deadlineOf key = deadline ∧
      idx.popDue now = some ((key, queue),
        { keys := idx.keys.erase key, byQueue := dropQueue idx.byQueue queue }) := by
  obtain ⟨⟨key, queue⟩, hhead, rfl⟩ := Option.map_eq_some_iff.mp h
  have hget := ExtTreeMap.mem_toList_iff_getElem?_eq_some.mp (List.mem_of_head? hhead)
  refine ⟨key, queue, hget, rfl, ?_⟩
  simp only [popDue, hhead, if_neg (Int64.not_lt.mpr hdue), remove, hget]

theorem popDue_eq_none_of_earliest {now : Int64}
    (h : ∀ deadline, idx.earliest = some deadline → now < deadline) : idx.popDue now = none := by
  unfold popDue
  split
  · rfl
  · rename_i key queue hhead
    have hlt := h (deadlineOf key) (by rw [earliest, hhead]; rfl)
    rw [if_pos hlt]

end TimerIndex

/-- After every sequence of operations the counts of an index are true, and a timer index pops its
keys in the order of their deadlines. -/
theorem index_counters :
    (∀ (calls : List ReadyIndexCall) (idx : ReadyIndex), idx = calls.foldl ReadyIndex.after {} →
      Counts (fun queue => idx.keys.toList.countP fun entry => readQueue entry.1 == some queue)
        idx.byQueue) ∧
    ∀ (calls : List TimerIndexCall) (idx : TimerIndex), TimerIndex.Calls {} calls idx →
      Counts (fun queue => idx.keys.toList.countP fun entry => entry.2 == queue) idx.byQueue ∧
      (∀ deadline, idx.earliest = some deadline ↔
        (∃ key ∈ idx.keys, deadlineOf key = deadline) ∧
          ∀ key ∈ idx.keys, deadline ≤ deadlineOf key) ∧
      ∀ now,
        (∀ deadline, idx.earliest = some deadline → deadline ≤ now →
          ∃ key queue, idx.keys[key]? = some queue ∧ deadlineOf key = deadline ∧
            idx.popDue now = some ((key, queue),
              { keys := idx.keys.erase key, byQueue := dropQueue idx.byQueue queue })) ∧
        ((∀ deadline, idx.earliest = some deadline → now < deadline) →
          idx.popDue now = none ∧ idx.after (.popDue now) = idx) := by
  refine ⟨?_, fun calls idx hcalls => ?_⟩
  · rintro calls _ rfl
    exact Counts.of_tally (ReadyIndex.counted_foldl calls)
  · have htimed := hcalls.timed
    refine ⟨by simpa [timerOwner] using Counts.of_tally htimed.counted,
      fun deadline => htimed.earliest_eq_some_iff,
      fun now => ⟨fun deadline => TimerIndex.popDue_of_earliest, fun hlater => ?_⟩⟩
    have hnone := TimerIndex.popDue_eq_none_of_earliest hlater
    exact ⟨hnone, by rw [TimerIndex.after, hnone]; rfl⟩

/-- The timer of a job. -/
def timerOf (id : String) (deadline : Int64) : Bytes := TimerKey.encode { deadline, jobId := id }

/-- Two timers, one of them inserted twice. -/
def threeInserts : List TimerIndexCall :=
  [.insert (timerOf "a" 2000) "emails", .insert (timerOf "b" 1000) "sms",
   .insert (timerOf "a" 2000) "emails"]

/-- The key that is inserted twice is counted once, and the other one is popped first. -/
theorem index_counters_threeInserts :
    (threeInserts.foldl TimerIndex.after {}).byQueue["emails"]?.getD 0 = 1 ∧
      ∃ key queue idx', (threeInserts.foldl TimerIndex.after {}).popDue 1500 =
        some ((key, queue), idx') ∧ deadlineOf key = 1000 := by
  have htime : ∀ id deadline, 0 ≤ Int64.toInt deadline → StartsWithTime (timerOf id deadline) :=
    fun id deadline h => ⟨deadline, asBytes id, h, rfl⟩
  have hcalls : TimerIndex.Calls {} threeInserts (threeInserts.foldl TimerIndex.after {}) := by
    refine .cons ⟨⟨fun owner h => ?_, htime _ _ (by decide)⟩, rfl⟩
      (.cons ⟨⟨fun owner h => ?_, htime _ _ (by decide)⟩, rfl⟩
        (.cons ⟨⟨fun owner h => ?_, htime _ _ (by decide)⟩, rfl⟩ (.nil _)))
    · cases h
    · revert h
      decide +revert
    · revert h
      decide +revert
  obtain ⟨hcounts, -, hpops⟩ := index_counters.2 _ _ hcalls
  have hearliest : (threeInserts.foldl TimerIndex.after {}).earliest = some 1000 := by
    decide +kernel
  obtain ⟨key, queue, -, hdeadline, hpop⟩ := (hpops 1500).1 1000 hearliest (by decide)
  refine ⟨?_, key, queue, _, hpop, hdeadline⟩
  rw [hcounts.eq "emails"]
  decide +kernel

end Sepp
