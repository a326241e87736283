import Mathlib.Data.Nat.Basic
import Mathlib.Tactic.Ring
import Mathlib.Tactic.NormNum

/-!
# Fixed-width big-endian byte strings

`BigEndian.toBytes w n` writes the low `w` bytes of `n`, the most significant byte first, and
`BigEndian.ofBytes` reads a byte string back as a number. The two are inverse on the numbers that
fit in `w` bytes, and the lexicographic order of the byte strings is the order of the numbers.
-/

namespace BigEndian

/-- The low `w` bytes of `n`, the most significant first. -/
def toBytes : ℕ → ℕ → List UInt8
  | 0, _ => []
  | w + 1, n => UInt8.ofNat (n / 256 ^ w) :: toBytes w n

/-- The number a byte string spells in base `256`, the most significant byte first. -/
def ofBytes : List UInt8 → ℕ
  | [] => 0
  | b :: bs => b.toNat * 256 ^ bs.length + ofBytes bs

@[simp]
theorem length_toBytes (w n : ℕ) : (toBytes w n).length = w := by
  induction w with
  | zero => rfl
  | succ w ih => simp only [toBytes, List.length_cons, ih]

/-- Reading back what was written keeps the number modulo `256 ^ w`. -/
theorem ofBytes_toBytes (w n : ℕ) : ofBytes (toBytes w n) = n % 256 ^ w := by
  induction w with
  | zero => simp only [toBytes, ofBytes, pow_zero, Nat.mod_one]
  | succ w ih =>
    have hmod : n % 256 ^ (w + 1) = n % 256 ^ w + 256 ^ w * (n / 256 ^ w % 256) := by
      rw [pow_succ, Nat.mod_mul]
    have hbyte : (UInt8.ofNat (n / 256 ^ w)).toNat = n / 256 ^ w % 256 := UInt8.toNat_ofNat'
    rw [toBytes, ofBytes, length_toBytes, ih, hbyte, hmod]
    ring

theorem ofBytes_toBytes_of_lt {w n : ℕ} (h : n < 256 ^ w) : ofBytes (toBytes w n) = n := by
  rw [ofBytes_toBytes, Nat.mod_eq_of_lt h]

theorem ofBytes_lt (bs : List UInt8) : ofBytes bs < 256 ^ bs.length := by
  induction bs with
  | nil => simp [ofBytes]
  | cons b bs ih =>
    have hb := b.toNat_lt
    have hmul : b.toNat * 256 ^ bs.length ≤ 255 * 256 ^ bs.length :=
      Nat.mul_le_mul_right _ (by omega)
    rw [ofBytes, List.length_cons, pow_succ]
    omega

/-- Bytes above the width are not written. -/
theorem toBytes_add_mul (w n k : ℕ) : toBytes w (n + k * 256 ^ w) = toBytes w n := by
  induction w generalizing k with
  | zero => rfl
  | succ w ih =>
    have hsplit : n + k * 256 ^ (w + 1) = n + k * 256 * 256 ^ w := by ring
    have hdiv : (n + k * 256 * 256 ^ w) / 256 ^ w = n / 256 ^ w + k * 256 :=
      Nat.add_mul_div_right _ _ (by positivity)
    have hbyte : UInt8.ofNat (n / 256 ^ w + k * 256) = UInt8.ofNat (n / 256 ^ w) := by
      apply UInt8.toNat_inj.mp
      rw [UInt8.toNat_ofNat', UInt8.toNat_ofNat']
      omega
    rw [toBytes, toBytes, hsplit, hdiv, hbyte, ih]

/-- Writing what was read gives the bytes back. -/
theorem toBytes_ofBytes (bs : List UInt8) : toBytes bs.length (ofBytes bs) = bs := by
  induction bs with
  | nil => rfl
  | cons b bs ih =>
    have hlt := ofBytes_lt bs
    have hdiv : (ofBytes bs + b.toNat * 256 ^ bs.length) / 256 ^ bs.length = b.toNat := by
      rw [Nat.add_mul_div_right _ _ (by positivity), Nat.div_eq_of_lt hlt, Nat.zero_add]
    rw [ofBytes, List.length_cons, toBytes, Nat.add_comm, hdiv, toBytes_add_mul, ih,
      UInt8.ofNat_toNat]

/-! ### Byte order is numeric order -/

/-- Numbers are ordered by their leading digits first. -/
theorem compare_eq_then {m n b : ℕ} (hb : 0 < b) :
    compare m n = (compare (m / b) (n / b)).then (compare (m % b) (n % b)) := by
  have hm := Nat.div_add_mod m b
  have hn := Nat.div_add_mod n b
  have hmb := Nat.mod_lt m hb
  have hnb := Nat.mod_lt n hb
  rcases lt_trichotomy (m / b) (n / b) with h | h | h
  · have hmul : b * (m / b + 1) ≤ b * (n / b) := Nat.mul_le_mul_left b h
    rw [Nat.compare_eq_lt.mpr h, Ordering.lt_then, Nat.compare_eq_lt]
    rw [Nat.mul_add] at hmul
    omega
  · rw [h, Nat.compare_eq_eq.mpr rfl, Ordering.eq_then]
    rw [h] at hm
    rcases lt_trichotomy (m % b) (n % b) with h' | h' | h'
    · rw [Nat.compare_eq_lt.mpr h', Nat.compare_eq_lt]
      omega
    · rw [Nat.compare_eq_eq.mpr h', Nat.compare_eq_eq]
      omega
    · rw [Nat.compare_eq_gt.mpr h', Nat.compare_eq_gt]
      omega
  · have hmul : b * (n / b + 1) ≤ b * (m / b) := Nat.mul_le_mul_left b h
    rw [Nat.compare_eq_gt.mpr h, Ordering.gt_then, Nat.compare_eq_gt]
    rw [Nat.mul_add] at hmul
    omega

theorem toBytes_mod (w n : ℕ) : toBytes w (n % 256 ^ w) = toBytes w n := by
  have h := toBytes_add_mul w (n % 256 ^ w) (n / 256 ^ w)
  rwa [Nat.mul_comm, Nat.mod_add_div, eq_comm] at h

theorem compare_ofNat {m n : ℕ} (hm : m < 256) (hn : n < 256) :
    compare (UInt8.ofNat m) (UInt8.ofNat n) = compare m n := by
  have hm' : (UInt8.ofNat m).toNat = m := by rw [UInt8.toNat_ofNat', Nat.mod_eq_of_lt hm]
  have hn' : (UInt8.ofNat n).toNat = n := by rw [UInt8.toNat_ofNat', Nat.mod_eq_of_lt hn]
  change compareOfLessAndEq (UInt8.ofNat m) (UInt8.ofNat n) = compareOfLessAndEq m n
  rw [compareOfLessAndEq, compareOfLessAndEq]
  simp only [UInt8.lt_iff_toNat_lt, ← UInt8.toNat_inj, hm', hn']

/-- Of byte strings that start with numbers of one width, the numbers decide first. -/
theorem compare_toBytes_append {w m n : ℕ} (hm : m < 256 ^ w) (hn : n < 256 ^ w)
    (s t : List UInt8) : compare (toBytes w m ++ s) (toBytes w n ++ t) =
      (compare m n).then (compare s t) := by
  induction w generalizing m n with
  | zero =>
    obtain rfl : m = 0 := by simpa using hm
    obtain rfl : n = 0 := by simpa using hn
    simp [toBytes]
  | succ w ih =>
    have hpos : 0 < 256 ^ w := by positivity
    have hdiv : ∀ {k}, k < 256 ^ (w + 1) → k / 256 ^ w < 256 := fun h =>
      Nat.div_lt_of_lt_mul (by rwa [pow_succ] at h)
    rw [toBytes, toBytes, List.cons_append, List.cons_append, List.compare_cons_cons,
      compare_ofNat (hdiv hm) (hdiv hn), ← toBytes_mod w m, ← toBytes_mod w n,
      ih (Nat.mod_lt _ hpos) (Nat.mod_lt _ hpos), ← Ordering.then_assoc,
      ← compare_eq_then hpos]

end BigEndian
