import Sepp.Wire.Keys

/-!
# The order of keys

The rows of a keyspace are kept in the byte order of their keys. A key that starts with a
non-negative time is ordered by that time first; the ready keys of one queue are ordered by
descending priority, then by enqueue time, then by the bytes of the job id.

## Main definitions

* `StartsWithTime` — a key whose first eight bytes are a non-negative time.
* `ReadyKey.Before`, `ReadyKey.order` — the order in which the jobs of a queue are reserved.

## Main results

* `StartsWithTime.deadlineOf_le`.
* `ReadyKey.compare_encode`, `ReadyKey.before_of_compare`.
-/

open Std

namespace Sepp

/-! ### Times -/

theorem toNat_toUInt64_of_nonneg {t : Int64} (ht : 0 ≤ t.toInt) :
    t.toUInt64.toNat = t.toInt.toNat :=
  Int64.toNat_toUInt64_of_le (Int64.le_iff_toInt_le.mpr ht)

/-- Times that are not negative decide the order of the bytes first. -/
theorem compare_i64_append {t u : Int64} (ht : 0 ≤ t.toInt) (hu : 0 ≤ u.toInt) (s s' : Bytes) :
    compare (KeyWriter.i64 t ++ s) (KeyWriter.i64 u ++ s') =
      (compare t.toInt.toNat u.toInt.toNat).then (compare s s') := by
  have hfits : ∀ v : Int64, v.toUInt64.toNat < 256 ^ 8 := fun v => by
    simpa using v.toUInt64.toNat_lt
  rw [KeyWriter.i64, KeyWriter.i64, BigEndian.compare_toBytes_append (hfits t) (hfits u),
    toNat_toUInt64_of_nonneg ht, toNat_toUInt64_of_nonneg hu]

/-- A key that starts with a time that is not negative. -/
def StartsWithTime (key : Bytes) : Prop :=
  ∃ t : Int64, ∃ rest, 0 ≤ t.toInt ∧ key = KeyWriter.i64 t ++ rest

/-- Keys that start with a time are in the order of their times. -/
theorem StartsWithTime.deadlineOf_le {key key' : Bytes} (h : StartsWithTime key)
    (h' : StartsWithTime key') (hle : (compare key key').isLE) :
    deadlineOf key ≤ deadlineOf key' := by
  obtain ⟨t, rest, ht, rfl⟩ := h
  obtain ⟨t', rest', ht', rfl⟩ := h'
  rw [compare_i64_append ht ht'] at hle
  rw [deadlineOf_append, deadlineOf_append, Int64.le_iff_toInt_le]
  have hnat := Nat.isLE_compare.mp (Ordering.isLE_left_of_isLE_then hle)
  omega

/-! ### Ready keys -/

/-- Counting down from `k` turns the order around. -/
theorem compare_sub_left {m n k : ℕ} (hm : m ≤ k) (hn : n ≤ k) :
    compare (k - m) (k - n) = compare n m := by
  rcases Nat.lt_trichotomy n m with h | h | h
  · rw [Nat.compare_eq_lt.mpr h, Nat.compare_eq_lt]
    omega
  · rw [Nat.compare_eq_eq.mpr h, Nat.compare_eq_eq]
    omega
  · rw [Nat.compare_eq_gt.mpr h, Nat.compare_eq_gt]
    omega

theorem compare_toNat {m n : ℤ} (hm : 0 ≤ m) (hn : 0 ≤ n) :
    compare m.toNat n.toNat = compare m n := by
  rcases Int.lt_trichotomy m n with h | h | h
  · rw [Int.compare_eq_lt.mpr h, Nat.compare_eq_lt]
    omega
  · rw [Int.compare_eq_eq.mpr h, Nat.compare_eq_eq]
    omega
  · rw [Int.compare_eq_gt.mpr h, Nat.compare_eq_gt]
    omega

/-- A common beginning does not decide. -/
theorem compare_append_append (p s t : Bytes) : compare (p ++ s) (p ++ t) = compare s t := by
  induction p with
  | nil => rfl
  | cons b p ih =>
    rw [List.cons_append, List.cons_append, List.compare_cons_cons, ReflOrd.compare_self,
      Ordering.eq_then, ih]

namespace ReadyKey

/-- Higher priority first, then the older job, then the smaller id. -/
def Before (k k' : ReadyKey) : Prop :=
  k'.priority < k.priority ∨ k.priority = k'.priority ∧
    (k.enqueuedAt < k'.enqueuedAt ∨ k.enqueuedAt = k'.enqueuedAt ∧
      compare (asBytes k.jobId) (asBytes k'.jobId) = .lt)

/-- The order by descending priority, then by enqueue time, then by the bytes of the job id. -/
def order (k k' : ReadyKey) : Ordering :=
  (compare k'.priority.toNat k.priority.toNat).then
    ((compare k.enqueuedAt.toInt k'.enqueuedAt.toInt).then
      (compare (asBytes k.jobId) (asBytes k'.jobId)))

theorem order_eq_lt_iff {k k' : ReadyKey} : k.order k' = .lt ↔ k.Before k' := by
  rw [order, Ordering.then_eq_lt, Ordering.then_eq_lt, Nat.compare_eq_lt, Nat.compare_eq_eq,
    Int.compare_eq_lt, Int.compare_eq_eq, ← UInt32.lt_iff_toNat_lt, UInt32.toNat_inj,
    ← Int64.lt_iff_toInt_lt, Int64.toInt_inj, Before, eq_comm]

/-- The byte order of the ready keys of a queue. -/
theorem compare_encode {k k' : ReadyKey} (hqueue : k.queue = k'.queue) (hp : k.priority ≤ 9)
    (hp' : k'.priority ≤ 9) (ht : 0 ≤ k.enqueuedAt.toInt) (ht' : 0 ≤ k'.enqueuedAt.toInt) :
    compare k.encode k'.encode = k.order k' := by
  have hle : k.priority.toNat ≤ 9 := hp
  have hle' : k'.priority.toNat ≤ 9 := hp'
  rw [encode, encode, hqueue, compare_append_append, List.compare_cons_cons,
    compare_i64_append ht ht', invertPriority, invertPriority,
    BigEndian.compare_ofNat (by omega) (by omega), Nat.min_eq_left hle, Nat.min_eq_left hle',
    compare_sub_left hle hle', compare_toNat ht ht']
  rfl

/-- The byte order of the ready keys of a queue is the order in which its jobs are reserved. -/
theorem before_of_compare {k k' : ReadyKey} (hqueue : k.queue = k'.queue) (hp : k.priority ≤ 9)
    (hp' : k'.priority ≤ 9) (ht : 0 ≤ k.enqueuedAt.toInt) (ht' : 0 ≤ k'.enqueuedAt.toInt)
    (h : compare k.encode k'.encode = .lt) : k.Before k' := by
  rw [compare_encode hqueue hp hp' ht ht'] at h
  exact order_eq_lt_iff.mp h

end ReadyKey

end Sepp
