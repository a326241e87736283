import Mathlib.Logic.Function.Basic
import Sepp.Library.Tally

/-!
# Ordered maps that track a partial function

A family of objects `i : ι`, each of which owns at most one row of an ordered map: `f i` is the
row of `i`, if it has one. `Tracks own m f` says that the rows of `m` are exactly those of `f`,
where `own` reads the owner of a row off its key, so that two objects never share a key. Changing
the row of one object is one insertion or one erasure of the map.

`rowsOf g J` is the usual shape of `f`: every object has a state `J i`, or none, and `g` computes
the row of an object from its state.
-/

open Std

variable {α β ι σ : Type*} {cmp : α → α → Ordering}

/-- The rows of the objects whose states are `J`, by the layout `g`. -/
def rowsOf (g : ι → σ → Option (α × β)) (J : ι → Option σ) (i : ι) : Option (α × β) :=
  (J i).bind (g i)

section RowsOf

variable [DecidableEq ι] (g : ι → σ → Option (α × β)) {J : ι → Option σ} {i : ι}

theorem rowsOf_update (x : Option σ) :
    rowsOf g (Function.update J i x) = Function.update (rowsOf g J) i (x.bind (g i)) := by
  funext j
  by_cases h : j = i
  · subst h
    simp [rowsOf]
  · simp [rowsOf, Function.update_of_ne h]

omit [DecidableEq ι] in
theorem rowsOf_of_eq_some {s : σ} (h : J i = some s) : rowsOf g J i = g i s := by
  rw [rowsOf, h, Option.bind_some]

omit [DecidableEq ι] in
theorem rowsOf_eq_some_iff {k : α} {v : β} :
    rowsOf g J i = some (k, v) ↔ ∃ s, J i = some s ∧ g i s = some (k, v) :=
  Option.bind_eq_some_iff

end RowsOf

theorem Option.map_fst_eq_some_iff {o : Option (α × β)} {k : α} :
    o.map Prod.fst = some k ↔ ∃ v, o = some (k, v) := by
  rw [Option.map_eq_some_iff]
  constructor
  · rintro ⟨⟨_, v⟩, ho, rfl⟩
    exact ⟨v, ho⟩
  · rintro ⟨v, ho⟩
    exact ⟨(k, v), ho, rfl⟩

/-- The rows of `m` are the rows of `f`, and `own` finds the owner of each. -/
structure Tracks [TransCmp cmp] (own : α → Option ι) (m : ExtTreeMap α β cmp)
    (f : ι → Option (α × β)) : Prop where
  get_iff : ∀ k v, m[k]? = some v ↔ ∃ i, f i = some (k, v)
  own_eq : ∀ i k v, f i = some (k, v) → own k = some i

namespace Tracks

variable [TransCmp cmp] [LawfulEqCmp cmp] [DecidableEq α] [DecidableEq ι]
variable {own : α → Option ι} {m m' : ExtTreeMap α β cmp} {f : ι → Option (α × β)}
variable {i : ι} {k k₀ : α} {v v₀ : β}

omit [LawfulEqCmp cmp] [DecidableEq α] [DecidableEq ι] in
theorem empty : Tracks own (∅ : ExtTreeMap α β cmp) fun _ => none where
  get_iff k v := by simp
  own_eq i k v h := by cases h

omit [LawfulEqCmp cmp] [DecidableEq α] [DecidableEq ι] in
/-- The row of an object is in the map. -/
theorem get_of (h : Tracks own m f) (hi : f i = some (k, v)) : m[k]? = some v :=
  (h.get_iff k v).mpr ⟨i, hi⟩

omit [LawfulEqCmp cmp] [DecidableEq α] [DecidableEq ι] in
/-- Every row of the map is the row of its owner. -/
theorem row_of_get (h : Tracks own m f) (hk : m[k]? = some v) :
    ∃ i, own k = some i ∧ f i = some (k, v) := by
  obtain ⟨i, hi⟩ := (h.get_iff k v).mp hk
  exact ⟨i, h.own_eq i k v hi, hi⟩

omit [LawfulEqCmp cmp] [DecidableEq α] [DecidableEq ι] in
/-- A key is absent when the object it would belong to has no row under it. -/
theorem get_eq_none (h : Tracks own m f) (hown : own k = some i)
    (hi : ∀ v, f i ≠ some (k, v)) : m[k]? = none := by
  cases hk : m[k]? with
  | none => rfl
  | some v =>
    obtain ⟨j, hj, hrow⟩ := h.row_of_get hk
    rw [hown, Option.some.injEq] at hj
    exact absurd (hj ▸ hrow) (hi v)

omit [DecidableEq α] [DecidableEq ι] in
/-- A partial function is tracked by one map only. -/
theorem ext (h : Tracks own m f) (h' : Tracks own m' f) : m = m' := by
  refine ExtTreeMap.ext_getElem? fun k => Option.ext fun v => ?_
  exact (h.get_iff k v).trans (h'.get_iff k v).symm

omit [LawfulEqCmp cmp] [DecidableEq α] [DecidableEq ι] in
/-- A map with the keys of another tracks the same objects, with the values it has for them. -/
theorem derive {γ : Type*} {n : ExtTreeMap α γ cmp} {g : ι → Option (α × γ)} {val : α → β → γ}
    (h : Tracks own m f) (hn : ∀ k w, n[k]? = some w ↔ ∃ v, m[k]? = some v ∧ val k v = w)
    (hrow : ∀ i k v, f i = some (k, v) → g i = some (k, val k v))
    (hentry : ∀ i k w, g i = some (k, w) → ∃ v, f i = some (k, v)) : Tracks own n g where
  get_iff k w := by
    rw [hn]
    constructor
    · rintro ⟨v, hv, rfl⟩
      obtain ⟨i, hi⟩ := (h.get_iff k v).mp hv
      exact ⟨i, hrow i k v hi⟩
    · rintro ⟨i, hi⟩
      obtain ⟨v, hv⟩ := hentry i k w hi
      have hval := (hrow i k v hv).symm.trans hi
      exact ⟨v, h.get_of hv, congrArg Prod.snd (Option.some.inj hval)⟩
  own_eq i k w hi := by
    obtain ⟨v, hv⟩ := hentry i k w hi
    exact h.own_eq i k v hv

/-- Erasing the row of an object. -/
theorem erase (h : Tracks own m f) (hown : own k = some i)
    (hi : ∀ k₀ v, f i = some (k₀, v) → k₀ = k) :
    Tracks own (m.erase k) (Function.update f i none) where
  get_iff a w := by
    rw [ExtTreeMap.getElem?_erase_eq]
    constructor
    · intro ha
      split_ifs at ha with hka
      obtain ⟨j, hj⟩ := (h.get_iff a w).mp ha
      have hne : j ≠ i := fun hji => hka (hi a w (hji ▸ hj)).symm
      exact ⟨j, by rwa [Function.update_of_ne hne]⟩
    · rintro ⟨j, hj⟩
      by_cases hji : j = i
      · rw [hji, Function.update_self] at hj
        cases hj
      · rw [Function.update_of_ne hji] at hj
        have hka : k ≠ a := by
          rintro rfl
          exact hji (Option.some.inj ((h.own_eq j _ w hj).symm.trans hown))
        rw [if_neg hka]
        exact h.get_of hj
  own_eq j a w hj := by
    by_cases hji : j = i
    · rw [hji, Function.update_self] at hj
      cases hj
    · rw [Function.update_of_ne hji] at hj
      exact h.own_eq j a w hj

/-- Writing the row of an object that had none, or had one under the same key. -/
theorem insert (h : Tracks own m f) (hown : own k = some i)
    (hi : ∀ k₀ v, f i = some (k₀, v) → k₀ = k) :
    Tracks own (m.insert k v) (Function.update f i (some (k, v))) where
  get_iff a w := by
    rw [ExtTreeMap.getElem?_insert_eq]
    constructor
    · intro ha
      split_ifs at ha with hka
      · exact ⟨i, by rw [Function.update_self, hka, Option.some.inj ha]⟩
      · obtain ⟨j, hj⟩ := (h.get_iff a w).mp ha
        have hne : j ≠ i := fun hji => hka (hi a w (hji ▸ hj)).symm
        exact ⟨j, by rwa [Function.update_of_ne hne]⟩
    · rintro ⟨j, hj⟩
      by_cases hji : j = i
      · rw [hji, Function.update_self, Option.some.injEq, Prod.mk.injEq] at hj
        rw [if_pos hj.1, hj.2]
      · rw [Function.update_of_ne hji] at hj
        have hka : k ≠ a := by
          rintro rfl
          exact hji (Option.some.inj ((h.own_eq j _ w hj).symm.trans hown))
        rw [if_neg hka]
        exact h.get_of hj
  own_eq j a w hj := by
    by_cases hji : j = i
    · rw [hji, Function.update_self, Option.some.injEq, Prod.mk.injEq] at hj
      rw [← hj.1, hown, hji]
    · rw [Function.update_of_ne hji] at hj
      exact h.own_eq j a w hj

/-! ### The rows of one object -/

/-- The rows of `i` in the map: exactly the one under `k`, which is `v`. -/
def OneRow (own : α → Option ι) (m : ExtTreeMap α β cmp) (i : ι) (k : α) (v : β) : Prop :=
  ∀ k' v', m[k']? = some v' ∧ own k' = some i ↔ k' = k ∧ v' = v

/-- No row of `i` is in the map. -/
def NoRow (own : α → Option ι) (m : ExtTreeMap α β cmp) (i : ι) : Prop :=
  ∀ k v, m[k]? = some v → own k ≠ some i

omit [LawfulEqCmp cmp] [DecidableEq α] [DecidableEq ι] in
theorem oneRow (h : Tracks own m f) (hi : f i = some (k, v)) : OneRow own m i k v := by
  intro k' v'
  constructor
  · rintro ⟨hget, hown⟩
    obtain ⟨j, hj, hrow⟩ := h.row_of_get hget
    obtain rfl := Option.some.inj (hown.symm.trans hj)
    exact Prod.mk.inj (Option.some.inj (hrow.symm.trans hi))
  · rintro ⟨rfl, rfl⟩
    exact ⟨h.get_of hi, h.own_eq i _ _ hi⟩

omit [LawfulEqCmp cmp] [DecidableEq α] [DecidableEq ι] in
theorem noRow (h : Tracks own m f) (hi : f i = none) : NoRow own m i := by
  intro k v hget hown
  obtain ⟨j, hj, hrow⟩ := h.row_of_get hget
  obtain rfl := Option.some.inj (hown.symm.trans hj)
  cases hi.symm.trans hrow

omit [LawfulEqCmp cmp] [DecidableEq α] [DecidableEq ι] in
/-- Two maps agree on the keys of an object that has the same row in both. -/
theorem get_eq_of_own {f' : ι → Option (α × β)} (h : Tracks own m f) (h' : Tracks own m' f')
    (hown : own k = some i) (hi : f i = f' i) : m[k]? = m'[k]? := by
  refine Option.ext fun v => ?_
  constructor
  · intro hget
    obtain ⟨j, hj, hrow⟩ := h.row_of_get hget
    obtain rfl := Option.some.inj (hown.symm.trans hj)
    exact h'.get_of (hi ▸ hrow)
  · intro hget
    obtain ⟨j, hj, hrow⟩ := h'.row_of_get hget
    obtain rfl := Option.some.inj (hown.symm.trans hj)
    exact h.get_of (hi ▸ hrow)

/-! ### Changing the state of one object -/

section State

variable {g : ι → σ → Option (α × β)} {J : ι → Option σ} {x y : Option σ}

omit [LawfulEqCmp cmp] [DecidableEq α] in
/-- A new state with the row of the old one leaves the map alone. -/
theorem keep (h : Tracks own m (rowsOf g J)) (hJ : J i = x) (hrow : y.bind (g i) = x.bind (g i)) :
    Tracks own m (rowsOf g (Function.update J i y)) := by
  have hsame : Function.update (rowsOf g J) i (y.bind (g i)) = rowsOf g J := by
    rw [Function.update_eq_self_iff, hrow, rowsOf, hJ]
  rwa [rowsOf_update, hsame]

/-- A new state with a row, where the old one had none: the row is written. -/
theorem put (h : Tracks own m (rowsOf g J)) (hJ : J i = x) (hx : x.bind (g i) = none)
    (hy : y.bind (g i) = some (k, v)) (hown : own k = some i) :
    Tracks own (m.insert k v) (rowsOf g (Function.update J i y)) := by
  rw [rowsOf_update, hy]
  refine h.insert hown fun k₀ v₀ hk₀ => ?_
  rw [rowsOf, hJ, hx] at hk₀
  cases hk₀

/-- A new state without a row, where the old one had one: the row is erased. -/
theorem take (h : Tracks own m (rowsOf g J)) (hJ : J i = x) (hx : x.bind (g i) = some (k, v))
    (hy : y.bind (g i) = none) :
    Tracks own (m.erase k) (rowsOf g (Function.update J i y)) := by
  have hrow : rowsOf g J i = some (k, v) := by rw [rowsOf, hJ, hx]
  rw [rowsOf_update, hy]
  refine h.erase (h.own_eq i k v hrow) fun k₀ w hk₀ => ?_
  exact congrArg Prod.fst (Option.some.inj (hk₀.symm.trans hrow))

omit [LawfulEqCmp cmp] [DecidableEq α] [DecidableEq ι] in
/-- Of two layouts with the same keys, a map with the values of the second tracks it. -/
theorem derive_rowsOf {γ : Type*} {n : ExtTreeMap α γ cmp} {g' : ι → σ → Option (α × γ)}
    {val : α → β → γ} (h : Tracks own m (rowsOf g J))
    (hn : ∀ k w, n[k]? = some w ↔ ∃ v, m[k]? = some v ∧ val k v = w)
    (hrow : ∀ i s k v, J i = some s → g i s = some (k, v) → g' i s = some (k, val k v))
    (hentry : ∀ i s k w, g' i s = some (k, w) → ∃ v, g i s = some (k, v)) :
    Tracks own n (rowsOf g' J) := by
  refine h.derive hn (fun i k v hi => ?_) fun i k w hi => ?_
  · obtain ⟨s, hJ, hs⟩ := (rowsOf_eq_some_iff g).mp hi
    exact (rowsOf_eq_some_iff g').mpr ⟨s, hJ, hrow i s k v hJ hs⟩
  · obtain ⟨s, hJ, hs⟩ := (rowsOf_eq_some_iff g').mp hi
    obtain ⟨v, hv⟩ := hentry i s k w hs
    exact ⟨v, (rowsOf_eq_some_iff g).mpr ⟨s, hJ, hv⟩⟩

omit [LawfulEqCmp cmp] [DecidableEq α] [DecidableEq ι] in
/-- Maps that track layouts with the same keys have the same keys. -/
theorem mem_iff_of_keys {γ : Type*} {n : ExtTreeMap α γ cmp} {g' : ι → σ → Option (α × γ)}
    (h : Tracks own m (rowsOf g J)) (h' : Tracks own n (rowsOf g' J))
    (hkeys : ∀ i s, (g i s).map Prod.fst = (g' i s).map Prod.fst) : k ∈ m ↔ k ∈ n := by
  rw [ExtTreeMap.mem_iff_exists, ExtTreeMap.mem_iff_exists]
  constructor
  · rintro ⟨v, hv⟩
    obtain ⟨i, -, hi⟩ := h.row_of_get hv
    obtain ⟨s, hJ, hs⟩ := (rowsOf_eq_some_iff g).mp hi
    obtain ⟨w, hw⟩ := Option.map_fst_eq_some_iff.mp
      ((hkeys i s).symm.trans (Option.map_fst_eq_some_iff.mpr ⟨v, hs⟩))
    exact ⟨w, h'.get_of ((rowsOf_eq_some_iff g').mpr ⟨s, hJ, hw⟩)⟩
  · rintro ⟨w, hw⟩
    obtain ⟨i, -, hi⟩ := h'.row_of_get hw
    obtain ⟨s, hJ, hs⟩ := (rowsOf_eq_some_iff g').mp hi
    obtain ⟨v, hv⟩ := Option.map_fst_eq_some_iff.mp
      ((hkeys i s).trans (Option.map_fst_eq_some_iff.mpr ⟨w, hs⟩))
    exact ⟨v, h.get_of ((rowsOf_eq_some_iff g).mpr ⟨s, hJ, hv⟩)⟩

/-- Erasing the key that the row of an object would have, whether or not it has one. -/
theorem clear (h : Tracks own m (rowsOf g J)) (hJ : J i = x) (hown : own k = some i)
    (hx : ∀ k₀ v, x.bind (g i) = some (k₀, v) → k₀ = k) (hy : y.bind (g i) = none) :
    Tracks own (m.erase k) (rowsOf g (Function.update J i y)) := by
  rw [rowsOf_update, hy]
  refine h.erase hown fun k₀ w hk₀ => hx k₀ w ?_
  rwa [rowsOf, hJ] at hk₀

end State

end Tracks
