import Mathlib.Order.Basic
import Std.Data.ExtTreeMap.Lemmas

/-!
# Ranges of keys with a common prefix

In the lexicographic order on lists, the lists that start with `p` are an interval whose least
element is `p`. So the first key of an ordered map that is not below `p` starts with `p` as soon
as any key does.
-/

open Std

variable {α β : Type*} [Ord α] [TransOrd α] [LawfulEqOrd α]

namespace List

omit [TransOrd α] in
theorem isLE_compare_of_isPrefix {p l : List α} (h : p <+: l) : (compare p l).isLE := by
  obtain ⟨t, rfl⟩ := h
  induction p with
  | nil => cases t <;> simp
  | cons x p ih => simpa [List.compare_cons_cons, ReflOrd.compare_self] using ih

/-- A list between `p` and an extension of `p` starts with `p`. -/
theorem isPrefix_of_isLE_compare {p l t : List α} (h : (compare p l).isLE)
    (h' : (compare l (p ++ t)).isLE) : p <+: l := by
  induction p generalizing l with
  | nil => exact List.nil_prefix
  | cons x p ih =>
    cases l with
    | nil => simp at h
    | cons y l =>
      rw [List.compare_cons_cons, Ordering.isLE_then_iff_and] at h
      rw [List.cons_append, List.compare_cons_cons, Ordering.isLE_then_iff_and] at h'
      obtain rfl : x = y := LawfulEqOrd.eq_of_compare (OrientedCmp.isLE_antisymm h.1 h'.1)
      have hxx : compare x x = .eq := ReflOrd.compare_self
      simp only [hxx, reduceCtorEq, false_or] at h h'
      exact List.cons_prefix_cons.mpr ⟨rfl, ih h.2 h'.2⟩

end List

/-- The first key not below `p` is the least of the keys that are not. -/
theorem Std.ExtTreeMap.isLE_of_find?_toList {m : ExtTreeMap α β compare} {p k k₀ : α} {v v₀ : β}
    (hfind : m.toList.find? (fun entry => (compare p entry.1).isLE) = some (k₀, v₀))
    (hk : m[k]? = some v) (hp : (compare p k).isLE) : (compare k₀ k).isLE := by
  have hmem : (k, v) ∈ m.toList := ExtTreeMap.mem_toList_iff_getElem?_eq_some.mpr hk
  obtain ⟨-, before, after, hsplit, hbefore⟩ := List.find?_eq_some_iff_append.mp hfind
  -- `k` is not among the keys below `p`, so it is `k₀` or comes after it
  rw [hsplit, List.mem_append, List.mem_cons] at hmem
  rcases hmem with hmem | hmem | hmem
  · have hnot := hbefore _ hmem
    simp [hp] at hnot
  · rw [← (Prod.mk.inj hmem).1, ReflOrd.compare_self]
    rfl
  · have hord := m.ordered_keys_toList
    rw [hsplit, List.pairwise_append, List.pairwise_cons] at hord
    rw [hord.2.1.1 _ hmem]
    rfl

/-- If any key of an ordered map starts with `p`, so does the first key not below `p`. -/
theorem Std.ExtTreeMap.find?_isPrefix {m : ExtTreeMap (List α) β compare} {p k : List α} {v : β}
    (hk : m[k]? = some v) (hp : p <+: k) :
    ∃ k₀ v₀, m.toList.find? (fun entry => (compare p entry.1).isLE) = some (k₀, v₀) ∧
      m[k₀]? = some v₀ ∧ p <+: k₀ := by
  have hmem : (k, v) ∈ m.toList := ExtTreeMap.mem_toList_iff_getElem?_eq_some.mpr hk
  cases hfind : m.toList.find? fun entry => (compare p entry.1).isLE with
  | none => exact absurd (List.isLE_compare_of_isPrefix hp) (List.find?_eq_none.mp hfind _ hmem)
  | some entry =>
    obtain ⟨k₀, v₀⟩ := entry
    have hmem₀ := List.mem_of_find?_eq_some hfind
    have hle := List.find?_some hfind
    have hk₀ : (compare k₀ k).isLE :=
      ExtTreeMap.isLE_of_find?_toList hfind hk (List.isLE_compare_of_isPrefix hp)
    refine ⟨k₀, v₀, rfl, ExtTreeMap.mem_toList_iff_getElem?_eq_some.mp hmem₀, ?_⟩
    obtain ⟨t, rfl⟩ := hp
    exact List.isPrefix_of_isLE_compare hle hk₀

/-- No key of an ordered map is below its first. -/
theorem Std.ExtTreeMap.isLE_of_head?_toList {m : ExtTreeMap α β compare} {k k₀ : α} {v v₀ : β}
    (hhead : m.toList.head? = some (k₀, v₀)) (hk : m[k]? = some v) : (compare k₀ k).isLE := by
  obtain ⟨rest, hlist⟩ := List.head?_eq_some_iff.mp hhead
  have hmem : (k, v) ∈ m.toList := ExtTreeMap.mem_toList_iff_getElem?_eq_some.mpr hk
  have hord := m.ordered_keys_toList
  rw [hlist, List.pairwise_cons] at hord
  rw [hlist, List.mem_cons] at hmem
  rcases hmem with hmem | hmem
  · rw [(Prod.mk.inj hmem).1, ReflOrd.compare_self]
    rfl
  · rw [hord.1 _ hmem]
    rfl
