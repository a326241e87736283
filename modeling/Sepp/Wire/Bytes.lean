import Mathlib.Algebra.Order.Ring.Int
import Std.Data.ExtTreeMap

/-!
# Byte strings, UTF-8 text and saturating 64-bit arithmetic

The storage layer keys every row by a byte string and passes text through `str::as_bytes` and
`str::from_utf8`. Lean's `String` carries its UTF-8 encoding, so the two conversions are inverse
by construction. `fromUtf8Lossy` is `String::from_utf8_lossy`: the text itself for valid UTF-8,
and one replacement character for each maximal invalid piece otherwise.

Timestamps are `i64` milliseconds (`Int64`). `saturatingAdd`, `saturatingMul` and `i64OfU64` are
the saturating operations the source applies to them.
-/

namespace Sepp

/-- `Vec<u8>`. -/
abbrev Bytes := List UInt8

/-! ### UTF-8 -/

/-- `str::as_bytes`. -/
def asBytes (s : String) : Bytes := s.toByteArray.data.toList

/-- `std::str::from_utf8`, with the error dropped. -/
def fromUtf8 (bytes : Bytes) : Option String := String.fromUTF8? ⟨bytes.toArray⟩

@[simp]
theorem fromUtf8_asBytes (s : String) : fromUtf8 (asBytes s) = some s := by
  have hbytes : (⟨(asBytes s).toArray⟩ : ByteArray) = s.toByteArray := by simp [asBytes]
  rw [fromUtf8, hbytes, String.fromUTF8?, dif_pos s.isValidUTF8]
  rfl

theorem asBytes_of_fromUtf8 {bytes : Bytes} {s : String} (h : fromUtf8 bytes = some s) :
    asBytes s = bytes := by
  simp only [fromUtf8, String.fromUTF8?] at h
  split at h
  · obtain rfl := Option.some.inj h
    simp [asBytes, String.fromUTF8]
  · cases h

theorem fromUtf8_eq_some_iff {bytes : Bytes} {s : String} :
    fromUtf8 bytes = some s ↔ bytes = asBytes s :=
  ⟨fun h => (asBytes_of_fromUtf8 h).symm, fun h => h ▸ fromUtf8_asBytes s⟩

theorem asBytes_injective : Function.Injective asBytes := fun s t h =>
  Option.some.inj (by rw [← fromUtf8_asBytes s, h, fromUtf8_asBytes])

@[simp]
theorem asBytes_inj {s t : String} : asBytes s = asBytes t ↔ s = t := asBytes_injective.eq_iff

/-- `b` continues a multi-byte sequence. -/
private def isContinuation (b : UInt8) : Bool := 0x80 ≤ b && b ≤ 0xBF

/-- The second byte a lead byte of a three- or four-byte sequence accepts. -/
private def acceptsSecond (lead second : UInt8) : Bool :=
  if lead = 0xE0 then 0xA0 ≤ second && second ≤ 0xBF
  else if lead = 0xED then 0x80 ≤ second && second ≤ 0x9F
  else if lead = 0xF0 then 0x90 ≤ second && second ≤ 0xBF
  else if lead = 0xF4 then 0x80 ≤ second && second ≤ 0x8F
  else isContinuation second

/-- The six payload bits of a continuation byte. -/
private def payloadBits (b : UInt8) : ℕ := b.toNat % 64

/-- The characters of a byte string, one replacement character for each maximal invalid piece.
The fuel is the number of bytes left. -/
private def lossyChars : ℕ → Bytes → List Char
  | 0, _ => []
  | _ + 1, [] => []
  | n + 1, a :: rest =>
    if a < 0x80 then Char.ofNat a.toNat :: lossyChars n rest
    else if 0xC2 ≤ a && a ≤ 0xDF then
      match rest with
      | b :: rest' =>
        if isContinuation b then
          Char.ofNat (a.toNat % 32 * 64 + payloadBits b) :: lossyChars n rest'
        else '\uFFFD' :: lossyChars n rest
      | [] => ['\uFFFD']
    else if 0xE0 ≤ a && a ≤ 0xEF then
      match rest with
      | b :: rest' =>
        if acceptsSecond a b then
          match rest' with
          | c :: rest'' =>
            if isContinuation c then
              Char.ofNat (a.toNat % 16 * 4096 + payloadBits b * 64 + payloadBits c) ::
                lossyChars n rest''
            else '\uFFFD' :: lossyChars n rest'
          | [] => ['\uFFFD']
        else '\uFFFD' :: lossyChars n rest
      | [] => ['\uFFFD']
    else if 0xF0 ≤ a && a ≤ 0xF4 then
      match rest with
      | b :: rest' =>
        if acceptsSecond a b then
          match rest' with
          | c :: rest'' =>
            if isContinuation c then
              match rest'' with
              | d :: rest''' =>
                if isContinuation d then
                  Char.ofNat (a.toNat % 8 * 262144 + payloadBits b * 4096 +
                    payloadBits c * 64 + payloadBits d) :: lossyChars n rest'''
                else '\uFFFD' :: lossyChars n rest''
              | [] => ['\uFFFD']
            else '\uFFFD' :: lossyChars n rest'
          | [] => ['\uFFFD']
        else '\uFFFD' :: lossyChars n rest
      | [] => ['\uFFFD']
    else '\uFFFD' :: lossyChars n rest

/-- `String::from_utf8_lossy`. -/
def fromUtf8Lossy (bytes : Bytes) : String :=
  (fromUtf8 bytes).getD (String.ofList (lossyChars bytes.length bytes))

@[simp]
theorem fromUtf8Lossy_asBytes (s : String) : fromUtf8Lossy (asBytes s) = s := by
  rw [fromUtf8Lossy, fromUtf8_asBytes, Option.getD_some]

/-! ### Text in messages -/

/-- The code points from 128 on that `{:?}` escapes, as first and last of a range: control and
format characters, separators and private use. The toolchain's tables also have code points without
a character and marks that join the character before them; here these are printed. -/
def escapedRanges : List (ℕ × ℕ) :=
  [(0x80, 0xa0), (0xad, 0xad), (0x600, 0x605), (0x61c, 0x61c), (0x6dd, 0x6dd), (0x70f, 0x70f),
    (0x890, 0x891), (0x8e2, 0x8e2), (0x1680, 0x1680), (0x180e, 0x180e), (0x2000, 0x200f),
    (0x2028, 0x202f), (0x205f, 0x2064), (0x2066, 0x206f), (0x3000, 0x3000), (0xe000, 0xf8ff),
    (0xfeff, 0xfeff), (0xfff9, 0xfffb), (0x110bd, 0x110bd), (0x110cd, 0x110cd),
    (0x13430, 0x1343f), (0x1bca0, 0x1bca3), (0x1d173, 0x1d17a), (0xe0001, 0xe0001),
    (0xe0020, 0xe007f), (0xf0000, 0xffffd), (0x100000, 0x10fffd)]

/-- A character as `{:?}` prints it inside a text. -/
def debugChar (c : Char) : String :=
  match c.toNat with
  | 0x00 => "\\0"
  | 0x09 => "\\t"
  | 0x0a => "\\n"
  | 0x0d => "\\r"
  | 0x22 => "\\\x22"
  | 0x5c => "\\\\"
  | code =>
    if code < 0x20 ∨ code = 0x7f ∨ ∃ range ∈ escapedRanges, range.1 ≤ code ∧ code ≤ range.2 then
      "\\u\x7b" ++ String.ofList (Nat.toDigits 16 code) ++ "\x7d"
    else String.singleton c

/-- A text as `{:?}` prints it. -/
def debugStr (s : String) : String := "\x22" ++ String.join (s.toList.map debugChar) ++ "\x22"

/-! ### Saturating arithmetic on `i64` -/

/-- The `i64` closest to an integer. -/
def saturate (x : ℤ) : Int64 := Int64.ofInt (max (-2 ^ 63) (min x (2 ^ 63 - 1)))

/-- `i64::saturating_add`. -/
def saturatingAdd (a b : Int64) : Int64 := saturate (a.toInt + b.toInt)

/-- `i64::saturating_sub`. -/
def saturatingSub (a b : Int64) : Int64 := saturate (a.toInt - b.toInt)

/-- `i64::saturating_mul`. -/
def saturatingMul (a b : Int64) : Int64 := saturate (a.toInt * b.toInt)

/-- `i64::try_from(x).unwrap_or(i64::MAX)`. -/
def i64OfU64 (x : UInt64) : Int64 := saturate x.toNat

theorem toInt_saturate (x : ℤ) : (saturate x).toInt = max (-2 ^ 63) (min x (2 ^ 63 - 1)) := by
  rw [saturate, Int64.toInt_ofInt_of_le] <;> omega

theorem toInt_saturatingAdd (a b : Int64) :
    (saturatingAdd a b).toInt = max (-2 ^ 63) (min (a.toInt + b.toInt) (2 ^ 63 - 1)) :=
  toInt_saturate _

theorem saturate_toInt (a : Int64) : saturate a.toInt = a := by
  have hlo := a.le_toInt
  have hhi := a.toInt_lt
  apply Int64.toInt_inj.mp
  rw [toInt_saturate]
  omega

end Sepp
