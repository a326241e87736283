import Mathlib.Data.Set.Card
import Mathlib.Data.Set.Insert

/-!
# The first elements of a set

`FirstBy r s n chosen`: in the order `r`, the list `chosen` has the first `n` elements of the set
`s`, or all of them if there are fewer. Elements that `r` does not tell apart may come in any
order.

A loop that takes out the least element until it has `n` of them chooses the first `n`
(`FirstBy.cons`).
-/

variable {α : Type*} {r : α → α → Prop} {s : Set α} {n : ℕ} {x : α} {chosen : List α}

/-- The first `n` elements of `s`, in order. -/
structure FirstBy (r : α → α → Prop) (s : Set α) (n : ℕ) (chosen : List α) : Prop where
  sorted : chosen.Pairwise r
  nodup : chosen.Nodup
  mem : ∀ x ∈ chosen, x ∈ s
  length_le : chosen.length ≤ n
  rest : ∀ x ∈ s, x ∉ chosen → chosen.length = n ∧ ∀ y ∈ chosen, r y x

namespace FirstBy

theorem zero (r : α → α → Prop) (s : Set α) : FirstBy r s 0 [] where
  sorted := .nil
  nodup := .nil
  mem x hx := by cases hx
  length_le := Nat.le_refl 0
  rest x _ _ := ⟨rfl, fun y hy => by cases hy⟩

theorem empty (r : α → α → Prop) (n : ℕ) (h : s = ∅) : FirstBy r s n [] where
  sorted := .nil
  nodup := .nil
  mem x hx := by cases hx
  length_le := Nat.zero_le n
  rest x hx := by
    rw [h] at hx
    exact hx.elim

/-- Taking out a least element. -/
theorem cons (hx : x ∈ s) (hleast : ∀ y ∈ s, r x y) (h : FirstBy r (s \ {x}) n chosen) :
    FirstBy r s (n + 1) (x :: chosen) where
  sorted := List.pairwise_cons.mpr ⟨fun y hy => hleast y (h.mem y hy).1, h.sorted⟩
  nodup := List.nodup_cons.mpr ⟨fun hmem => (h.mem x hmem).2 rfl, h.nodup⟩
  mem y hy := by
    rcases List.mem_cons.mp hy with rfl | hy
    · exact hx
    · exact (h.mem y hy).1
  length_le := Nat.succ_le_succ h.length_le
  rest y hy hnot := by
    rw [List.mem_cons, not_or] at hnot
    obtain ⟨hlen, hle⟩ := h.rest y ⟨hy, hnot.1⟩ hnot.2
    refine ⟨congrArg (· + 1) hlen, fun z hz => ?_⟩
    rcases List.mem_cons.mp hz with rfl | hz
    · exact hleast y hy
    · exact hle z hz

/-- With room for all, all are chosen. -/
theorem mem_of_lt (h : FirstBy r s n chosen) (hlt : chosen.length < n) (hx : x ∈ s) :
    x ∈ chosen := by
  by_contra hnot
  exact absurd (h.rest x hx hnot).1 (Nat.ne_of_lt hlt)

/-- As many as are wanted are chosen, or as many as there are. -/
theorem length_eq (h : FirstBy r s n chosen) (hs : s.Finite) :
    chosen.length = min n s.ncard := by
  classical
  have hsub : (chosen.toFinset : Set α) ⊆ s := fun x hx => h.mem x (by simpa using hx)
  have hcard : (chosen.toFinset : Set α).ncard = chosen.length := by
    rw [Set.ncard_coe_finset, List.toFinset_card_of_nodup h.nodup]
  have hle := Set.ncard_le_ncard hsub hs
  rw [hcard] at hle
  rcases Nat.lt_or_ge chosen.length n with hlt | hge
  · have heq : (chosen.toFinset : Set α) = s :=
      hsub.antisymm fun x hx => by simpa using h.mem_of_lt hlt hx
    rw [heq] at hcard
    omega
  · have hlen := h.length_le
    omega

/-- With room for all, all are chosen. -/
theorem mem_of_ncard_le (h : FirstBy r s n chosen) (hs : s.Finite) (hn : s.ncard ≤ n)
    (hx : x ∈ s) : x ∈ chosen := by
  classical
  have hsub : (chosen.toFinset : Set α) ⊆ s := fun x hx => h.mem x (by simpa using hx)
  have hcard : s.ncard ≤ (chosen.toFinset : Set α).ncard := by
    rw [Set.ncard_coe_finset, List.toFinset_card_of_nodup h.nodup, h.length_eq hs,
      Nat.min_eq_right hn]
  rw [← Set.eq_of_subset_of_ncard_le hsub hcard hs] at hx
  simpa using hx

/-- Of the elements that come before all others, as many are chosen as are wanted, or all. -/
theorem ncard_sdiff_le {first : Set α} (h : FirstBy r s n chosen) (hfirst : first ⊆ s)
    (hlower : ∀ x ∈ first, ∀ y ∈ s, r y x → y ∈ first) :
    (first \ {x | x ∈ chosen}).ncard ≤ first.ncard - n := by
  classical
  rcases Set.eq_empty_or_nonempty (first \ {x | x ∈ chosen}) with hempty | ⟨x, hx, hnot⟩
  · rw [hempty, Set.ncard_empty]
    exact Nat.zero_le _
  · -- something is left, so the chosen ones are as many as are wanted, and all come before it
    obtain ⟨hlength, hbefore⟩ := h.rest x (hfirst hx) hnot
    have hchosen : (chosen.toFinset : Set α) = {x | x ∈ chosen} := by
      ext y
      simp
    have hsub : (chosen.toFinset : Set α) ⊆ first := fun y hy => by
      have hmem : y ∈ chosen := by simpa using hy
      exact hlower x hx y (h.mem y hmem) (hbefore y hmem)
    rw [← hchosen, Set.ncard_sdiff hsub, Set.ncard_coe_finset, List.toFinset_card_of_nodup h.nodup,
      hlength]

end FirstBy
