import Sepp.Library.BigEndian

/-!
# The protobuf wire format

A message on the wire is a sequence of fields, each a number with a value: a base-128 varint, eight
little-endian bytes, or a length-delimited string of bytes. `encode` writes a list of fields and
`decode` reads it back; `field` and `fieldsAt` look a field up by its number, and `optional` and
`repeated` write the fields of a message so that the lookups find them.

## Main results

* `decode_encode` — the wire format is read back.
* `field_append`, `field_optional`, `fieldsAt_repeated` — lookups in a written message.
-/

namespace Protobuf

/-! ### Varints -/

/-- Base-128 digits of a number, lowest first, all but the last with the high bit set; the first
argument bounds how many there are. -/
def varintAux : ℕ → ℕ → List UInt8
  | 0, n => [UInt8.ofNat n]
  | fuel + 1, n =>
    if n < 128 then [UInt8.ofNat n] else UInt8.ofNat (n % 128 + 128) :: varintAux fuel (n / 128)

/-- A number in base 128, with as many digits as it needs. -/
def varint (n : ℕ) : List UInt8 := varintAux n n

/-- The number at the start of the bytes, and the bytes after it. -/
def readVarint : List UInt8 → Option (ℕ × List UInt8)
  | [] => none
  | b :: bytes =>
    if b.toNat < 128 then some (b.toNat, bytes)
    else (readVarint bytes).map fun (n, rest) => (b.toNat - 128 + 128 * n, rest)

theorem readVarint_varintAux (fuel n : ℕ) (rest : List UInt8) (h : n ≤ fuel) :
    readVarint (varintAux fuel n ++ rest) = some (n, rest) := by
  have hsmall : ∀ {n}, n < 128 → readVarint (UInt8.ofNat n :: rest) = some (n, rest) := by
    intro n hn
    have hbyte : (UInt8.ofNat n).toNat = n := UInt8.toNat_ofNat_of_lt' (by rw [UInt8.size]; omega)
    simp only [readVarint, hbyte, if_pos hn]
  induction fuel generalizing n with
  | zero => exact hsmall (by omega)
  | succ fuel ih =>
    unfold varintAux
    split_ifs with hn
    · exact hsmall hn
    · have hbyte : (UInt8.ofNat (n % 128 + 128)).toNat = n % 128 + 128 :=
        UInt8.toNat_ofNat_of_lt' (by rw [UInt8.size]; omega)
      have hdigits : n % 128 + 128 - 128 + 128 * (n / 128) = n := by omega
      rw [List.cons_append, readVarint, hbyte, if_neg (by omega), ih (n / 128) (by omega),
        Option.map_some]
      simp only [hdigits]

theorem readVarint_append (n : ℕ) (rest : List UInt8) :
    readVarint (varint n ++ rest) = some (n, rest) :=
  readVarint_varintAux n n rest le_rfl

theorem varint_ne_nil (n : ℕ) : varint n ≠ [] := by
  cases n with
  | zero => simp [varint, varintAux]
  | succ n =>
    unfold varint varintAux
    split_ifs <;> simp

/-! ### Fields -/

/-- The value of a field, by wire type. -/
inductive Value where
  | varint (n : ℕ)
  | fixed64 (n : UInt64)
  | len (bytes : List UInt8)

/-- A field of a message. -/
structure Field where
  number : ℕ
  value : Value

/-- A field: its number and wire type in one varint, then its value. -/
def encodeField (f : Field) : List UInt8 :=
  match f.value with
  | .varint n => varint (8 * f.number) ++ varint n
  | .fixed64 n => varint (8 * f.number + 1) ++ (BigEndian.toBytes 8 n.toNat).reverse
  | .len bytes => varint (8 * f.number + 2) ++ (varint bytes.length ++ bytes)

/-- The value of a field of wire type `wireType` at the start of the bytes. -/
def readValue (wireType : ℕ) (bytes : List UInt8) : Option (Value × List UInt8) :=
  match wireType with
  | 0 => (readVarint bytes).map fun (n, rest) => (.varint n, rest)
  | 1 =>
    if bytes.length < 8 then none
    else some (.fixed64 (UInt64.ofNat (BigEndian.ofBytes (bytes.take 8).reverse)), bytes.drop 8)
  | 2 => (readVarint bytes).bind fun (n, rest) =>
    if rest.length < n then none else some (.len (rest.take n), rest.drop n)
  | _ => none

/-- The field at the start of the bytes, and the bytes after it. -/
def readField (bytes : List UInt8) : Option (Field × List UInt8) :=
  (readVarint bytes).bind fun (tag, rest) =>
    (readValue (tag % 8) rest).map fun (value, rest) => (⟨tag / 8, value⟩, rest)

theorem readField_append (f : Field) (rest : List UInt8) :
    readField (encodeField f ++ rest) = some (f, rest) := by
  obtain ⟨number, value⟩ := f
  cases value with
  | varint n =>
    have htag : 8 * number % 8 = 0 ∧ 8 * number / 8 = number := by omega
    simp only [encodeField, List.append_assoc, readField, readVarint_append, Option.bind_some,
      htag.1, htag.2, readValue, Option.map_some]
  | fixed64 n =>
    have htag : (8 * number + 1) % 8 = 1 ∧ (8 * number + 1) / 8 = number := by omega
    have hlen : (BigEndian.toBytes 8 n.toNat).reverse.length = 8 := by simp
    have hback : BigEndian.ofBytes (BigEndian.toBytes 8 n.toNat) = n.toNat :=
      BigEndian.ofBytes_toBytes_of_lt (by simpa using n.toNat_lt)
    simp only [encodeField, List.append_assoc, readField, readVarint_append, Option.bind_some,
      htag.1, htag.2, readValue]
    rw [if_neg (by simp), List.take_left' hlen, List.drop_left' hlen, List.reverse_reverse, hback]
    simp
  | len bytes =>
    have htag : (8 * number + 2) % 8 = 2 ∧ (8 * number + 2) / 8 = number := by omega
    simp only [encodeField, List.append_assoc, readField, readVarint_append, Option.bind_some,
      htag.1, htag.2, readValue]
    rw [if_neg (by simp), List.take_left, List.drop_left]
    rfl

theorem one_le_length_encodeField (f : Field) : 1 ≤ (encodeField f).length := by
  have hpos : ∀ n, 1 ≤ (varint n).length := fun n => List.length_pos_iff.mpr (varint_ne_nil n)
  unfold encodeField
  split <;> rw [List.length_append] <;> exact Nat.le_add_right_of_le (hpos _)

/-! ### Messages -/

/-- A message: its fields one after the other. -/
def encode (fields : List Field) : List UInt8 := fields.flatMap encodeField

/-- At most as many fields as the first argument says. -/
def decodeAux : ℕ → List UInt8 → Option (List Field)
  | _, [] => some []
  | 0, _ :: _ => none
  | fuel + 1, bytes => (readField bytes).bind fun (f, rest) => (decodeAux fuel rest).map (f :: ·)

/-- The fields of a message; every field takes at least one byte. -/
def decode (bytes : List UInt8) : Option (List Field) := decodeAux bytes.length bytes

theorem length_le_length_encode (fields : List Field) : fields.length ≤ (encode fields).length := by
  induction fields with
  | nil => exact Nat.zero_le _
  | cons f fields ih =>
    have hf := one_le_length_encodeField f
    simp only [encode, List.flatMap_cons, List.length_append, List.length_cons] at ih ⊢
    omega

theorem decodeAux_encode {fuel : ℕ} {fields : List Field} (h : fields.length ≤ fuel) :
    decodeAux fuel (encode fields) = some fields := by
  induction fields generalizing fuel with
  | nil => cases fuel <;> rfl
  | cons f fields ih =>
    cases fuel with
    | zero => simp at h
    | succ fuel =>
      have hne : encode (f :: fields) ≠ [] := by
        have hlen := length_le_length_encode (f :: fields)
        intro hnil
        simp [hnil] at hlen
      have hstep : decodeAux (fuel + 1) (encode (f :: fields)) =
          (readField (encode (f :: fields))).bind fun (f, rest) =>
            (decodeAux fuel rest).map (f :: ·) := by
        obtain ⟨b, bytes, hbytes⟩ := List.exists_cons_of_ne_nil hne
        rw [hbytes]
        rfl
      have hrest := ih (by simpa using h : fields.length ≤ fuel)
      rw [encode] at hrest
      rw [hstep, encode, List.flatMap_cons, readField_append, Option.bind_some]
      simp only [hrest, Option.map_some]

/-- What was written is read back. -/
theorem decode_encode (fields : List Field) : decode (encode fields) = some fields :=
  decodeAux_encode (length_le_length_encode fields)

/-! ### Looking fields up -/

/-- The value of the field with a number, if there is one. -/
def field (fields : List Field) (number : ℕ) : Option Value :=
  (fields.find? fun f => f.number == number).map Field.value

/-- The values of all fields with a number. -/
def fieldsAt (fields : List Field) (number : ℕ) : List Value :=
  (fields.filter fun f => f.number == number).map Field.value

/-- A field that may be absent. -/
def optional (number : ℕ) (value : Option Value) : List Field :=
  (value.map (Field.mk number)).toList

/-- A field that may be there many times. -/
def repeated (number : ℕ) (values : List Value) : List Field := values.map (Field.mk number)

section Lookup

variable (n m : ℕ) (fields fields' : List Field)

@[simp]
theorem field_append :
    field (fields ++ fields') n = (field fields n).or (field fields' n) := by
  rw [field, List.find?_append, Option.map_or]
  rfl

@[simp]
theorem field_optional (value : Option Value) :
    field (optional n value) m = if n = m then value else none := by
  cases value <;> by_cases h : n = m <;> simp [field, optional, h]

@[simp]
theorem field_repeated_of_ne {n m : ℕ} (h : n ≠ m) (values : List Value) :
    field (repeated n values) m = none := by
  have hnone : (repeated n values).find? (fun f => f.number == m) = none := by
    simp [repeated, h]
  rw [field, hnone, Option.map_none]

@[simp]
theorem fieldsAt_append :
    fieldsAt (fields ++ fields') n = fieldsAt fields n ++ fieldsAt fields' n := by
  simp [fieldsAt]

@[simp]
theorem fieldsAt_optional_of_ne {n m : ℕ} (h : n ≠ m) (value : Option Value) :
    fieldsAt (optional n value) m = [] := by
  cases value <;> simp [fieldsAt, optional, h]

@[simp]
theorem fieldsAt_repeated (values : List Value) : fieldsAt (repeated n values) n = values := by
  simp [fieldsAt, repeated, List.filter_map, Function.comp_def]

end Lookup

end Protobuf
