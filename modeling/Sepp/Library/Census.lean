import Mathlib.Data.Set.Card
import Sepp.Library.Tracks

/-!
# How many objects are in a state

Every object `i : ι` has a state `J i`, or none; `census P J` is the number of objects whose state
satisfies `P`. A change of one object changes the census by at most one, and when an ordered map
tracks a layout of the states, the entries that an owner has in it are counted by a census.

## Main definitions

* `census` — the number of objects in a state with `P`.
* `tick` — what one object contributes.

## Main results

* `census_update` — the census after a change of one object.
* `Tracks.count_eq_census` — the entries of an owner, as a census.
-/

open Std

variable {α β γ ι σ : Type*}

/-- The objects whose state satisfies `P`. -/
def Inhabits (P : ι → σ → Prop) (J : ι → Option σ) : Set ι := { i | ∃ s, J i = some s ∧ P i s }

/-- The number of objects whose state satisfies `P`. -/
noncomputable def census (P : ι → σ → Prop) (J : ι → Option σ) : ℕ := (Inhabits P J).ncard

open Classical in
/-- What one object contributes to the census. -/
noncomputable def tick (P : ι → σ → Prop) (i : ι) (x : Option σ) : ℕ :=
  if ∃ s, x = some s ∧ P i s then 1 else 0

section Tick

variable {P Q : ι → σ → Prop} {i : ι} {s : σ}

@[simp] theorem tick_none : tick P i none = 0 := by simp [tick]

theorem tick_of_pos (h : P i s) : tick P i (some s) = 1 := if_pos ⟨s, rfl, h⟩

theorem tick_of_neg (h : ¬ P i s) : tick P i (some s) = 0 := by
  refine if_neg ?_
  rintro ⟨s', hs, hP⟩
  exact h (Option.some.inj hs ▸ hP)

theorem tick_congr {s' : σ} (h : P i s ↔ P i s') : tick P i (some s) = tick P i (some s') := by
  by_cases hs : P i s
  · rw [tick_of_pos hs, tick_of_pos (h.mp hs)]
  · rw [tick_of_neg hs, tick_of_neg (mt h.mpr hs)]

end Tick

section Census

variable {P Q : ι → σ → Prop} {J J' : ι → Option σ}

theorem census_congr (h : ∀ i s, J i = some s → (P i s ↔ Q i s)) : census P J = census Q J := by
  have hset : Inhabits P J = Inhabits Q J := by
    ext i
    exact exists_congr fun s => and_congr_right (h i s)
  rw [census, census, hset]

theorem Inhabits.subset (P : ι → σ → Prop) (J : ι → Option σ) :
    Inhabits P J ⊆ { i | J i ≠ none } := by
  rintro i ⟨s, hs, -⟩
  simp [hs]

theorem Inhabits.finite (hfin : { i | J i ≠ none }.Finite) : (Inhabits P J).Finite :=
  hfin.subset (Inhabits.subset P J)

/-- Objects in one of two states that exclude each other. -/
theorem census_or (hfin : { i | J i ≠ none }.Finite)
    (hdisj : ∀ i s, J i = some s → P i s → ¬ Q i s) :
    census (fun i s => P i s ∨ Q i s) J = census P J + census Q J := by
  have hunion : Inhabits (fun i s => P i s ∨ Q i s) J = Inhabits P J ∪ Inhabits Q J := by
    ext i
    constructor
    · rintro ⟨s, hs, hP | hQ⟩
      · exact .inl ⟨s, hs, hP⟩
      · exact .inr ⟨s, hs, hQ⟩
    · rintro (⟨s, hs, hP⟩ | ⟨s, hs, hQ⟩)
      · exact ⟨s, hs, .inl hP⟩
      · exact ⟨s, hs, .inr hQ⟩
  have hdisjoint : Disjoint (Inhabits P J) (Inhabits Q J) := by
    refine Set.disjoint_left.mpr ?_
    rintro i ⟨s, hs, hP⟩ ⟨s', hs', hQ⟩
    obtain rfl := Option.some.inj (hs.symm.trans hs')
    exact hdisj i s hs hP hQ
  rw [census, hunion,
    Set.ncard_union_eq hdisjoint (Inhabits.finite hfin) (Inhabits.finite hfin), census, census]

theorem census_eq_zero_iff (hfin : { i | J i ≠ none }.Finite) :
    census P J = 0 ↔ ∀ i s, J i = some s → ¬ P i s := by
  rw [census, Set.ncard_eq_zero (Inhabits.finite hfin), Set.eq_empty_iff_forall_notMem]
  constructor
  · intro h i s hs hP
    exact h i ⟨s, hs, hP⟩
  · rintro h i ⟨s, hs, hP⟩
    exact h i s hs hP

variable [DecidableEq ι]

/-- Without the object `i`, the census is short of what `i` contributes. -/
theorem census_update_none (hfin : { i | J i ≠ none }.Finite) (i : ι) :
    census P (Function.update J i none) + tick P i (J i) = census P J := by
  have hrest : Inhabits P (Function.update J i none) = Inhabits P J \ {i} := by
    ext j
    rw [Set.mem_sdiff, Set.mem_singleton_iff]
    constructor
    · rintro ⟨s, hs, hP⟩
      by_cases hj : j = i
      · rw [hj, Function.update_self] at hs
        cases hs
      · rw [Function.update_of_ne hj] at hs
        exact ⟨⟨s, hs, hP⟩, hj⟩
    · rintro ⟨⟨s, hs, hP⟩, hj⟩
      exact ⟨s, by rwa [Function.update_of_ne hj], hP⟩
  unfold tick
  split_ifs with hi
  · rw [census, hrest, census]
    exact Set.ncard_sdiff_singleton_add_one hi (Inhabits.finite hfin)
  · have hsame : Inhabits P J \ {i} = Inhabits P J := Set.sdiff_singleton_eq_self hi
    rw [census, hrest, census, hsame, Nat.add_zero]

/-- A change of one object changes the census by what the object contributes. -/
theorem census_update (hfin : { i | J i ≠ none }.Finite) (i : ι) (x : Option σ) :
    census P (Function.update J i x) + tick P i (J i) = census P J + tick P i x := by
  have hfin' : { j | Function.update J i x j ≠ none }.Finite := by
    refine (hfin.insert i).subset fun j hj => ?_
    by_cases hji : j = i
    · exact .inl hji
    · rw [Set.mem_ofPred_eq, Function.update_of_ne hji] at hj
      exact .inr hj
  have hold := census_update_none (P := P) hfin i
  have hnew := census_update_none (P := P) hfin' i
  rw [Function.update_idem, Function.update_self] at hnew
  omega

end Census

/-! ### The entries of an owner -/

namespace Tracks

variable {cmp : α → α → Ordering} [TransCmp cmp] [LawfulEqCmp cmp] [DecidableEq α] [DecidableEq γ]
variable {own : α → Option ι} {m : ExtTreeMap α β cmp} {g : ι → σ → Option (α × β)}
  {J : ι → Option σ}

omit [DecidableEq α] in
/-- Finitely many objects have a row. -/
theorem finite (h : Tracks own m (rowsOf g J)) : { i | rowsOf g J i ≠ none }.Finite := by
  have hkeys : { k | k ∈ m }.Finite := by
    refine (List.finite_toSet m.keys).subset fun k hk => ?_
    exact ExtTreeMap.mem_keys.mpr hk
  refine Set.Finite.of_finite_image ((hkeys.image own).subset ?_)
    (f := some) (Option.some_injective _).injOn
  rintro _ ⟨i, hi, rfl⟩
  obtain ⟨⟨k, v⟩, hrow⟩ := Option.ne_none_iff_exists'.mp hi
  exact ⟨k, ExtTreeMap.mem_iff_exists.mpr ⟨v, h.get_of hrow⟩, h.own_eq i k v hrow⟩

/-- The entries that `q` owns are the objects with a row that `q` owns. -/
theorem count_eq_census (h : Tracks own m (rowsOf g J)) (owner : α → β → Option γ) (q : γ) :
    Tally.count owner m q =
      census (fun i s => ∃ k v, g i s = some (k, v) ∧ owner k v = some q) J := by
  set n := m.filter fun k v => owner k v == some q with hn
  have hget : ∀ k v, n[k]? = some v ↔ m[k]? = some v ∧ owner k v = some q := by
    intro k v
    rw [hn, ExtTreeMap.getElem?_filter', Option.filter_eq_some_iff, beq_iff_eq]
  have hcard : n.size = { k | k ∈ n }.ncard := by
    have hset : { k | k ∈ n } = (n.keys.toFinset : Set α) := by
      ext k
      simp [ExtTreeMap.mem_keys]
    rw [hset, Set.ncard_coe_finset, List.toFinset_card_of_nodup ExtTreeMap.nodup_keys,
      ExtTreeMap.length_keys]
  -- an entry and its owner determine each other
  have hinj : Set.InjOn own { k | k ∈ n } := by
    intro k hk k' hk' heq
    obtain ⟨v, hv⟩ := ExtTreeMap.mem_iff_exists.mp hk
    obtain ⟨v', hv'⟩ := ExtTreeMap.mem_iff_exists.mp hk'
    obtain ⟨i, hi, hrow⟩ := h.row_of_get ((hget k v).mp hv).1
    exact ((h.oneRow hrow k' v').mp ⟨((hget k' v').mp hv').1, heq ▸ hi⟩).1.symm
  have himage : own '' { k | k ∈ n } = some '' Inhabits
      (fun i s => ∃ k v, g i s = some (k, v) ∧ owner k v = some q) J := by
    ext x
    constructor
    · rintro ⟨k, hk, rfl⟩
      obtain ⟨v, hv⟩ := ExtTreeMap.mem_iff_exists.mp hk
      obtain ⟨hmem, hown⟩ := (hget k v).mp hv
      obtain ⟨i, hi, hrow⟩ := h.row_of_get hmem
      obtain ⟨s, hJ, hg⟩ := (rowsOf_eq_some_iff g).mp hrow
      exact ⟨i, ⟨s, hJ, k, v, hg, hown⟩, hi.symm⟩
    · rintro ⟨i, ⟨s, hJ, k, v, hg, hown⟩, rfl⟩
      have hrow : rowsOf g J i = some (k, v) := (rowsOf_eq_some_iff g).mpr ⟨s, hJ, hg⟩
      exact ⟨k, ExtTreeMap.mem_iff_exists.mpr ⟨v, (hget k v).mpr ⟨h.get_of hrow, hown⟩⟩,
        h.own_eq i k v hrow⟩
  calc Tally.count owner m q = { k | k ∈ n }.ncard := by rw [Tally.count, ← hn, hcard]
    _ = (own '' { k | k ∈ n }).ncard := hinj.ncard_image.symm
    _ = _ := by rw [himage, Set.ncard_image_of_injective _ (Option.some_injective _), census]

end Tracks
