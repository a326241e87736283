import Mathlib.Data.List.Basic

/-!
# Lines served one after the other

Several lines are served in a given order, with one limit for all of them. A line that comes again
in the order is empty by then, so it counts once.
-/

namespace List

variable {α β : Type*} [BEq α] [LawfulBEq α] [DecidableEq α]

theorem filter_not_beq (x : α) (l : List α) : l.filter (fun b => !b == x) = l.filter (· ≠ x) := by
  refine filter_congr fun b _ => ?_
  by_cases hb : b = x <;> simp [hb]

/-- An empty line may be left out of the order. -/
theorem flatMap_eraseDups_of_eq_nil {line : α → List β} {x : α} (hx : line x = [])
    (order : List α) :
    order.eraseDups.flatMap line = (order.filter (· ≠ x)).eraseDups.flatMap line := by
  induction hn : order.length using Nat.strongRecOn generalizing order with
  | ind n ih =>
    cases order with
    | nil => rfl
    | cons y order =>
      rw [eraseDups_cons, flatMap_cons]
      by_cases hy : y = x
      · rw [hy, filter_cons_of_neg (by simp), hx, nil_append, filter_not_beq]
      · have hlen : (order.filter fun b => !b == y).length < n := by
          have hle := length_filter_le (fun b => !b == y) order
          rw [length_cons] at hn
          omega
        rw [ih _ hlen _ rfl, filter_cons_of_pos (by simpa using hy), eraseDups_cons, flatMap_cons,
          filter_comm]

/-- Serving the first line and then the others, as what is left of them. -/
theorem take_flatMap_eraseDups_cons {line rest : α → List β} {x : α} {order : List α} {n : ℕ}
    (hx : (line x).length ≤ n → rest x = [])
    (hother : ∀ y ∈ order, y ≠ x → rest y = line y) :
    ((x :: order).eraseDups.flatMap line).take n =
      (line x).take n ++
        (order.eraseDups.flatMap rest).take (n - ((line x).take n).length) := by
  rw [eraseDups_cons, flatMap_cons, take_append]
  congr 1
  rw [length_take]
  rcases Nat.lt_or_ge n (line x).length with hlt | hge
  · rw [Nat.sub_eq_zero_of_le (Nat.le_of_lt hlt), Nat.min_eq_left (Nat.le_of_lt hlt),
      Nat.sub_self, take_zero, take_zero]
  · rw [Nat.min_eq_right hge, flatMap_eraseDups_of_eq_nil (hx hge)]
    rw [filter_not_beq]
    congr 1
    refine flatMap_congr fun y hy => ?_
    have hmem := mem_filter.mp (mem_eraseDups.mp hy)
    exact (hother y hmem.1 (of_decide_eq_true hmem.2)).symm

end List
