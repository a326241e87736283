import Mathlib.Data.List.Nodup
import Mathlib.Data.List.Sort
import Sepp.Library.Tally

/-!
# Matches within a window

A search through a list that stops after `n` matches, and after it has looked at `cap` elements.
It finds the first `n` matches of the whole list exactly if they are all among the first `cap`
elements (`List.take_filter_take_eq_iff`).

The keys of an ordered map are such a list. When a search takes out the keys that it finds, the
next one goes on behind them.
-/

open Std

namespace List

variable {α : Type*} {l : List α} {p : α → Bool} {n cap : ℕ}

/-- The matches within the window, and then those behind it. -/
theorem take_filter_eq_append (l : List α) (p : α → Bool) (n cap : ℕ) :
    (l.filter p).take n = ((l.take cap).filter p).take n ++
      ((l.drop cap).filter p).take (n - ((l.take cap).filter p).length) := by
  conv_lhs => rw [← l.take_append_drop cap, filter_append, take_append]

/-- The first matches are found exactly if none of them is behind the window. -/
theorem take_filter_take_eq_iff (h : l.Nodup) :
    ((l.take cap).filter p).take n = (l.filter p).take n ↔
      ∀ x ∈ (l.filter p).take n, x ∈ l.take cap := by
  constructor
  · intro heq x hx
    rw [← heq] at hx
    exact mem_of_mem_filter (mem_of_mem_take hx)
  · intro hall
    have hbehind : ((l.drop cap).filter p).take (n - ((l.take cap).filter p).length) = [] := by
      refine eq_nil_iff_forall_not_mem.mpr fun x hx => ?_
      have hin : x ∈ l.take cap := by
        refine hall x ?_
        rw [take_filter_eq_append l p n cap]
        exact mem_append_right _ hx
      rw [← l.take_append_drop cap] at h
      exact disjoint_of_nodup_append h hin (mem_of_mem_filter (mem_of_mem_take hx))
    rw [take_filter_eq_append l p n cap, hbehind, append_nil]

/-- Without the first elements, the rest. -/
theorem filter_not_mem_take [DecidableEq α] (h : l.Nodup) (n : ℕ) :
    l.filter (fun x => x ∉ l.take n) = l.drop n := by
  have hsplit := l.take_append_drop n
  rw [← hsplit] at h
  conv_lhs =>
    rw [← hsplit]
  rw [filter_append, hsplit, filter_eq_nil_iff.mpr (by simp), nil_append,
    filter_eq_self.mpr fun x hx => ?_]
  exact decide_eq_true fun hin => disjoint_of_nodup_append h hin hx

end List

namespace Std.ExtTreeMap

variable {α β : Type*} {cmp : α → α → Ordering} [TransCmp cmp] [LawfulEqCmp cmp] [DecidableEq α]

theorem getElem?_foldl_erase (m : ExtTreeMap α β cmp) (keys : List α) (key : α) :
    (keys.foldl (·.erase ·) m)[key]? = if key ∈ keys then none else m[key]? := by
  induction keys generalizing m with
  | nil => rfl
  | cons k keys ih =>
    rw [List.foldl_cons, ih, getElem?_erase_eq]
    by_cases hkey : key ∈ keys
    · rw [if_pos hkey, if_pos (List.mem_cons_of_mem _ hkey)]
    · rw [if_neg hkey]
      by_cases hk : k = key
      · rw [if_pos hk, if_pos (hk ▸ List.mem_cons_self)]
      · rw [if_neg hk, if_neg fun hmem => (List.mem_cons.mp hmem).elim (Ne.symm hk) hkey]

omit [DecidableEq α] in
/-- Two ordered lists of keys are the same if they have the same keys. -/
theorem eq_of_ordered {l l' : List α} (h : l.Pairwise fun a b => cmp a b = .lt)
    (h' : l'.Pairwise fun a b => cmp a b = .lt) (hmem : ∀ a, a ∈ l ↔ a ∈ l') : l = l' := by
  have : Irrefl fun a b => cmp a b = .lt := ⟨fun a hlt => by simp [ReflCmp.compare_self] at hlt⟩
  have : Antisymm fun a b => cmp a b = .lt :=
    ⟨fun a b hab hba => by rw [OrientedCmp.gt_of_lt hab] at hba; cases hba⟩
  exact h.eq_of_mem_iff h' hmem

omit [DecidableEq α] in
/-- The entries of a map are an ordered list of them. -/
theorem toList_eq_of_ordered {m : ExtTreeMap α β cmp} {l : List (α × β)}
    (h : l.Pairwise fun a b => cmp a.1 b.1 = .lt) (hmem : ∀ k v, (k, v) ∈ l ↔ m[k]? = some v) :
    m.toList = l := by
  have : Irrefl fun a b : α × β => cmp a.1 b.1 = .lt :=
    ⟨fun a hlt => by simp [ReflCmp.compare_self] at hlt⟩
  have : Antisymm fun a b : α × β => cmp a.1 b.1 = .lt :=
    ⟨fun a b hab hba => by rw [OrientedCmp.gt_of_lt hab] at hba; cases hba⟩
  refine m.ordered_keys_toList.eq_of_mem_iff h fun ⟨k, v⟩ => ?_
  rw [hmem, mem_toList_iff_getElem?_eq_some]

theorem keys_foldl_erase (m : ExtTreeMap α β cmp) (keys : List α) :
    (keys.foldl (·.erase ·) m).keys = m.keys.filter fun key => key ∉ keys := by
  refine eq_of_ordered ordered_keys (ordered_keys.filter _) fun key => ?_
  rw [mem_keys, List.mem_filter, mem_keys, mem_iff_isSome_getElem?, mem_iff_isSome_getElem?,
    getElem?_foldl_erase]
  by_cases hkey : key ∈ keys <;> simp [hkey]

end Std.ExtTreeMap
