import Sepp.Store.Indexes

/-!
# Waiting for ready jobs

`QueueNotifiers`, `JobWaiter` and `Armed` of `src/storage.rs`. A handler that waits for jobs holds
the notifier of each of its queues, and enables a future on each of them before it looks for jobs.
The committer wakes the queues that have got ready jobs after it has committed them.

A notifier is the number of its allocation. Its handles are one in the map and those that waiters
hold. Of `tokio` it is assumed that `notify_waiters` notifies the futures that were enabled on the
notifier before, and no others.

## Main definitions

* `QueueNotifiers.get` — the notifier of a queue; a large map is pruned first.
* `notifyWaiters` — what a wake does to enabled futures.
-/

open Std

namespace Sepp

/-- `Arc<Notify>`. -/
abbrev Notify := ℕ

/-- A `Notified` future that is enabled. -/
structure Notified where
  notify : Notify
  notified : Bool := false
deriving DecidableEq, Repr

/-- `Notify::notify_waiters`, for the futures of one waiter. -/
def notifyWaiters (notify : Notify) (waiters : List Notified) : List Notified :=
  waiters.map fun waiter =>
    if waiter.notify = notify then { waiter with notified := true } else waiter

/-- `NOTIFIER_PRUNE_THRESHOLD`. -/
def notifierPruneThreshold : ℕ := 4096

/-- The notifiers, and the next allocation. -/
structure QueueNotifiers where
  map : ExtTreeMap String Notify compare := ∅
  next : Notify := 0

namespace QueueNotifiers

/-- `Arc::strong_count` of a notifier in the map, when `held` are the handles outside of it. -/
def strongCount (held : List Notify) (notify : Notify) : ℕ := 1 + held.count notify

/-- The pruning of `get`: drops the notifiers that no waiter holds. -/
def prune (map : ExtTreeMap String Notify compare) (held : List Notify) :
    ExtTreeMap String Notify compare :=
  if notifierPruneThreshold ≤ map.size then
    map.filter fun _ notify => decide (1 < strongCount held notify)
  else map

/-- `QueueNotifiers::get`. -/
def get (notifiers : QueueNotifiers) (held : List Notify) (queue : String) :
    Notify × QueueNotifiers :=
  let map := prune notifiers.map held
  match map[queue]? with
  | some notify => (notify, { notifiers with map })
  | none =>
    (notifiers.next, { map := map.insert queue notifiers.next, next := notifiers.next + 1 })

end QueueNotifiers

/-! ### A held notifier stays -/

section Held

variable {map : ExtTreeMap String Notify compare} {held : List Notify} {queue other : String}
  {notify : Notify}

/-- Pruning keeps the notifiers that are held. -/
theorem QueueNotifiers.getElem?_prune (h : map[other]? = some notify) (hheld : notify ∈ held) :
    (prune map held)[other]? = some notify := by
  rw [prune]
  split_ifs
  · have hpos : 0 < held.count notify := List.count_pos_iff.mpr hheld
    have hcount : 1 < strongCount held notify := Nat.lt_add_of_pos_right hpos
    rw [ExtTreeMap.getElem?_filter', h, Option.filter_some, if_pos (decide_eq_true hcount)]
  · exact h

variable {notifiers : QueueNotifiers}

/-- A queue whose notifier is held keeps it when any queue is looked up. -/
theorem QueueNotifiers.getElem?_get (h : notifiers.map[other]? = some notify)
    (hheld : notify ∈ held) : (notifiers.get held queue).2.map[other]? = some notify := by
  have hkept := getElem?_prune h hheld
  rw [get]
  split
  · exact hkept
  · rename_i hnone
    have hne : queue ≠ other := by
      rintro rfl
      cases hkept.symm.trans hnone
    rw [ExtTreeMap.getElem?_insert, if_neg (by simpa using hne)]
    exact hkept

/-- The notifier that is looked up is the one in the map. -/
theorem QueueNotifiers.getElem?_get_self :
    (notifiers.get held queue).2.map[queue]? = some (notifiers.get held queue).1 := by
  rw [get]
  split
  · assumption
  · exact ExtTreeMap.getElem?_insert_self

end Held

end Sepp
