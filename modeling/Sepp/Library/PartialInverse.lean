import Mathlib.Data.Set.List

/-!
# Partial inverses

A decoder that may fail inverts an encoder when it returns exactly what was encoded. Such a
decoder fails exactly outside the range of the encoder. The relation is kept by lists and by
required fields.

## Main definitions

* `Inverts` — a decoder inverts an encoder.
-/

variable {α β ε : Type*}

/-- The decoder returns `x` on the encoding of `x`, and on nothing else. -/
def Inverts (encode : α → β) (decode : β → Except ε α) : Prop :=
  ∀ m x, decode m = .ok x ↔ encode x = m

theorem Except.bind_eq_ok_iff {α β ε : Type*} {x : Except ε α} {f : α → Except ε β} {b : β} :
    x.bind f = .ok b ↔ ∃ a, x = .ok a ∧ f a = .ok b := by
  cases x with
  | error e => simp [Except.bind]
  | ok a => simp [Except.bind]

namespace Inverts

variable {encode : α → β} {decode : β → Except ε α}

theorem decode_encode (h : Inverts encode decode) (x : α) : decode (encode x) = .ok x :=
  (h _ x).mpr rfl

/-- The decoder fails exactly outside the range of the encoder. -/
theorem exists_error_iff (h : Inverts encode decode) (m : β) :
    (∃ e, decode m = .error e) ↔ m ∉ Set.range encode := by
  constructor
  · rintro ⟨e, he⟩ ⟨x, hx⟩
    cases he.symm.trans ((h m x).mpr hx)
  · intro hm
    cases hdecode : decode m with
    | error e => exact ⟨e, rfl⟩
    | ok x => exact absurd ⟨x, (h m x).mp hdecode⟩ hm

end Inverts

/-- Lists are decoded one element after the other. -/
theorem Inverts.mapM {α β ε : Type} {encode : α → β} {decode : β → Except ε α}
    (h : Inverts encode decode) : Inverts (List.map encode) (List.mapM decode) := by
  intro ms
  induction ms with
  | nil =>
    intro xs
    rw [List.mapM_nil, List.map_eq_nil_iff]
    exact ⟨fun hxs => (Except.ok.inj hxs).symm, fun hxs => congrArg Except.ok hxs.symm⟩
  | cons m ms ih =>
    intro xs
    rw [List.mapM_cons, List.map_eq_cons_iff]
    change (decode m).bind _ = _ ↔ _
    rw [Except.bind_eq_ok_iff]
    constructor
    · rintro ⟨x, hx, hrest⟩
      obtain ⟨xs', hxs', hpure⟩ := Except.bind_eq_ok_iff.mp hrest
      exact ⟨x, xs', (Except.ok.inj hpure).symm, (h m x).mp hx, (ih xs').mp hxs'⟩
    · rintro ⟨x, xs', rfl, hx, hxs'⟩
      exact ⟨x, (h m x).mpr hx, Except.bind_eq_ok_iff.mpr ⟨xs', (ih xs').mpr hxs', rfl⟩⟩
