import Mathlib.Data.List.Basic

/-!
# Linearizations

Callers see their own calls and what these return. An order of operations, each with the value it
returns, linearizes what is seen when every operation was called, every value that was returned is
there, and an operation that returned before another was called comes before it. An operation that
was called and has not returned may or may not be in the order: it may have taken effect without its
caller having been told.

Orders grow at their end: with a batch of operations that take effect together, some of which
return, or with a call, which adds nothing.

## Main definitions

* `Seen`, `Linearizes`.

## Main results

* `Linearizes.calls`, `Linearizes.batch` — how orders grow.
-/

/-- What a caller sees: a call is made, or it returns. -/
inductive Seen (ι ρ : Type*) where
  | call (id : ι)
  | ret (id : ι) (value : ρ)

variable {ι ρ : Type*} {seen : List (Seen ι ρ)} {order entries : List (ι × ρ)} {id : ι}

/-- The operations, in the order in which they took effect, agree with what is seen. -/
structure Linearizes (seen : List (Seen ι ρ)) (order : List (ι × ρ)) : Prop where
  nodup : (order.map Prod.fst).Nodup
  called : ∀ x ∈ order, .call x.1 ∈ seen
  returned : ∀ id value, .ret id value ∈ seen → (id, value) ∈ order
  /-- What returned before another operation was called took effect before it. -/
  ordered : ∀ earlier id value later, seen = earlier ++ .ret id value :: later →
    ∀ x ∈ order, .call x.1 ∉ earlier → x.1 ≠ id → [(id, value), x].Sublist order

namespace Linearizes

theorem nil : Linearizes ([] : List (Seen ι ρ)) [] where
  nodup := List.nodup_nil
  called _ hx := absurd hx List.not_mem_nil
  returned _ _ h := absurd h List.not_mem_nil
  ordered earlier _ _ later h := absurd h.symm (by simp)

/-- Operations take effect together, after they were called, and some values are returned. -/
theorem batch (h : Linearizes seen order) (hnodup : ((order ++ entries).map Prod.fst).Nodup)
    (hcalled : ∀ x ∈ entries, .call x.1 ∈ seen) {rets : List (Seen ι ρ)}
    (hrets : ∀ s ∈ rets, ∃ x ∈ entries, s = .ret x.1 x.2) :
    Linearizes (seen ++ rets) (order ++ entries) where
  nodup := hnodup
  called x hx := by
    refine List.mem_append_left _ ?_
    exact (List.mem_append.mp hx).elim (h.called x) (hcalled x)
  returned id value hret := by
    rcases List.mem_append.mp hret with hret | hret
    · exact List.mem_append_left _ (h.returned id value hret)
    · obtain ⟨x, hx, heq⟩ := hrets _ hret
      cases heq
      exact List.mem_append_right _ hx
  ordered earlier id value later heq x hx hlate hne := by
    rcases List.append_eq_append_iff.mp heq with ⟨rest, rfl, hrets'⟩ | ⟨rest, hseen, hrest⟩
    · -- the value is returned by the batch, and by then everything in the order was called
      refine absurd (List.mem_append_left _ ?_) hlate
      exact (List.mem_append.mp hx).elim (h.called x) (hcalled x)
    · cases rest with
      | nil =>
        obtain rfl : seen = earlier := hseen.trans (List.append_nil earlier)
        refine absurd ?_ hlate
        exact (List.mem_append.mp hx).elim (h.called x) (hcalled x)
      | cons first rest =>
        rw [List.cons_append, List.cons.injEq] at hrest
        obtain ⟨rfl, -⟩ := hrest
        rcases List.mem_append.mp hx with hx | hx
        · exact (h.ordered earlier id value rest hseen x hx hlate hne).trans
            (List.sublist_append_left order _)
        · have hbefore : (id, value) ∈ order := h.returned id value (by simp [hseen])
          exact (List.singleton_sublist.mpr hbefore).append (List.singleton_sublist.mpr hx)

/-- A new operation is called. -/
theorem call (h : Linearizes seen order) : Linearizes (seen ++ [.call id]) order where
  nodup := h.nodup
  called x hx := List.mem_append_left _ (h.called x hx)
  returned id value hret := by
    rcases List.mem_append.mp hret with hret | hret
    · exact h.returned id value hret
    · cases List.mem_singleton.mp hret
  ordered earlier id' value later heq x hx hlate hne := by
    rcases List.append_eq_append_iff.mp heq with ⟨rest, rfl, hcall⟩ | ⟨rest, hseen, hrest⟩
    · exact absurd (List.mem_append_left _ (h.called x hx)) hlate
    · cases rest with
      | nil => cases hrest
      | cons first rest =>
        rw [List.cons_append, List.cons.injEq] at hrest
        obtain ⟨rfl, -⟩ := hrest
        exact h.ordered earlier id' value rest hseen x hx hlate hne

/-- Operations are called. -/
theorem calls (h : Linearizes seen order) (ids : List ι) :
    Linearizes (seen ++ ids.map .call) order := by
  induction ids generalizing seen with
  | nil => simpa using h
  | cons id ids ih => simpa using ih (h.call)

end Linearizes
