import Mathlib.Algebra.Ring.Nat
import Mathlib.Data.List.Nodup
import Mathlib.Order.Basic
import Std.Data.ExtTreeMap.Lemmas

/-!
# Tallies of an ordered map by owner

An ordered map `m` whose entries have owners, and a second map that counts, for every owner, the
entries of `m` it owns. The counts are kept by hand: `Tally.bump` when an entry appears,
`Tally.drop` when one goes, and no owner is left with a zero count. `Tally own m t` says that `t`
is the true tally of `m`; it determines `t` (`Tally.ext`), and each operation on `m` has the
operation on `t` that keeps it true.
-/

set_option linter.unusedSectionVars false

open Std

variable {α β γ : Type*} {cmp : α → α → Ordering} {ord : γ → γ → Ordering}

section Lookup

variable [TransCmp cmp] [LawfulEqCmp cmp] [DecidableEq α]

theorem Std.ExtTreeMap.getElem?_insert_eq (m : ExtTreeMap α β cmp) (k a : α) (v : β) :
    (m.insert k v)[a]? = if k = a then some v else m[a]? := by
  simp only [ExtTreeMap.getElem?_insert, LawfulEqCmp.compare_eq_iff_eq]

theorem Std.ExtTreeMap.getElem?_erase_eq (m : ExtTreeMap α β cmp) (k a : α) :
    (m.erase k)[a]? = if k = a then none else m[a]? := by
  simp only [ExtTreeMap.getElem?_erase, LawfulEqCmp.compare_eq_iff_eq]

/-- Erasing a key that is not there changes nothing. -/
theorem Std.ExtTreeMap.erase_of_getElem?_eq_none {m : ExtTreeMap α β cmp} {k : α}
    (h : m[k]? = none) : m.erase k = m := by
  refine ExtTreeMap.ext_getElem? fun a => ?_
  rw [ExtTreeMap.getElem?_erase_eq]
  split_ifs with ha
  · rw [← ha, h]
  · rfl

/-- Writing a key does not depend on what was under it. -/
theorem Std.ExtTreeMap.insert_erase (m : ExtTreeMap α β cmp) (k : α) (v : β) :
    (m.erase k).insert k v = m.insert k v := by
  refine ExtTreeMap.ext_getElem? fun a => ?_
  simp only [ExtTreeMap.getElem?_insert_eq, ExtTreeMap.getElem?_erase_eq]
  split_ifs <;> rfl

omit [LawfulEqCmp cmp] [DecidableEq α] in
theorem Std.ExtTreeMap.mem_iff_exists {m : ExtTreeMap α β cmp} {k : α} :
    k ∈ m ↔ ∃ v, m[k]? = some v := by
  rw [ExtTreeMap.mem_iff_isSome_getElem?, Option.isSome_iff_exists]

theorem Std.ExtTreeMap.mem_erase_iff {m : ExtTreeMap α β cmp} {k a : α} :
    a ∈ m.erase k ↔ a ∈ m ∧ a ≠ k := by
  rw [ExtTreeMap.mem_erase, ne_eq, LawfulEqCmp.compare_eq_iff_eq, and_comm, eq_comm]

/-- Writing a list of entries in which every key has one value. -/
theorem Std.ExtTreeMap.getElem?_foldl_insert {l : List (α × β)}
    (hl : ∀ k v w, (k, v) ∈ l → (k, w) ∈ l → v = w) (m : ExtTreeMap α β cmp) (k : α) (v : β) :
    (l.foldl (fun m e => m.insert e.1 e.2) m)[k]? = some v ↔
      (k, v) ∈ l ∨ (∀ w, (k, w) ∉ l) ∧ m[k]? = some v := by
  induction l generalizing m with
  | nil => simp
  | cons e l ih =>
    obtain ⟨k₀, v₀⟩ := e
    rw [List.foldl_cons, ih fun k v w hv hw =>
      hl k v w (List.mem_cons_of_mem _ hv) (List.mem_cons_of_mem _ hw)]
    rw [ExtTreeMap.getElem?_insert_eq]
    by_cases hk : k₀ = k
    · subst hk
      have huniq : ∀ w, (k₀, w) ∈ l → w = v₀ := fun w hw =>
        hl k₀ w v₀ (List.mem_cons_of_mem _ hw) List.mem_cons_self
      rw [if_pos rfl, Option.some.injEq]
      constructor
      · rintro (hmem | ⟨-, rfl⟩)
        · exact .inl (List.mem_cons_of_mem _ hmem)
        · exact .inl List.mem_cons_self
      · rintro (hmem | ⟨hnone, -⟩)
        · rcases List.mem_cons.mp hmem with heq | hmem
          · obtain rfl : v = v₀ := congrArg Prod.snd heq
            by_cases hex : ∃ w, (k₀, w) ∈ l
            · obtain ⟨w, hw⟩ := hex
              exact .inl (huniq w hw ▸ hw)
            · exact .inr ⟨fun w hw => hex ⟨w, hw⟩, rfl⟩
          · exact .inl hmem
        · exact absurd List.mem_cons_self (hnone v₀)
    · have hmem : ∀ w, (k, w) ∈ (k₀, v₀) :: l ↔ (k, w) ∈ l := by
        intro w
        rw [List.mem_cons, Prod.mk.injEq]
        exact or_iff_right fun h => hk h.1.symm
      rw [if_neg hk]
      simp only [hmem]

/-- A map rebuilt from another: under every key, what `val` says of the entry there. -/
theorem Std.ExtTreeMap.getElem?_foldl_toList {δ : Type*} (m : ExtTreeMap α β cmp)
    (val : α → β → δ) (k : α) (w : δ) :
    (m.toList.foldl (fun (m' : ExtTreeMap α δ cmp) e => m'.insert e.1 (val e.1 e.2)) ∅)[k]? =
      some w ↔ ∃ v, m[k]? = some v ∧ val k v = w := by
  have hmap : ∀ {k w}, (k, w) ∈ m.toList.map (fun e => (e.1, val e.1 e.2)) ↔
      ∃ v, m[k]? = some v ∧ val k v = w := by
    intro k w
    simp only [List.mem_map, Prod.exists, Prod.mk.injEq,
      ExtTreeMap.mem_toList_iff_getElem?_eq_some]
    constructor
    · rintro ⟨_, v, hv, rfl, rfl⟩
      exact ⟨v, hv, rfl⟩
    · rintro ⟨v, hv, rfl⟩
      exact ⟨k, v, hv, rfl, rfl⟩
  have hfold := ExtTreeMap.getElem?_foldl_insert
    (l := m.toList.map fun e => (e.1, val e.1 e.2)) (fun k v w hv hw => by
      obtain ⟨v', hv', rfl⟩ := hmap.mp hv
      obtain ⟨w', hw', rfl⟩ := hmap.mp hw
      rw [Option.some.inj (hv'.symm.trans hw')]) (∅ : ExtTreeMap α δ cmp) k w
  rw [List.foldl_map] at hfold
  rw [hfold, hmap]
  simp

/-- Merging entries leaves the other keys alone. -/
theorem Std.ExtTreeMap.getElem?_foldl_merge_of_notMem {δ : Type*} {l : List (α × β)}
    (f : β → Option δ → δ) (m : ExtTreeMap α δ cmp) {k : α} (hk : k ∉ l.map Prod.fst) :
    (l.foldl (fun m e => m.insert e.1 (f e.2 m[e.1]?)) m)[k]? = m[k]? := by
  induction l generalizing m with
  | nil => rfl
  | cons e l ih =>
    rw [List.map_cons, List.mem_cons, not_or] at hk
    rw [List.foldl_cons, ih _ hk.2, ExtTreeMap.getElem?_insert_eq, if_neg (Ne.symm hk.1)]

/-- A map merged into another: under every key, what `f` makes of the entry and of what was
there. -/
theorem Std.ExtTreeMap.getElem?_foldl_merge {δ : Type*} (n : ExtTreeMap α β cmp)
    (f : β → Option δ → δ) (m : ExtTreeMap α δ cmp) (k : α) :
    (n.toList.foldl (fun m e => m.insert e.1 (f e.2 m[e.1]?)) m)[k]? =
      n[k]?.elim m[k]? fun v => some (f v m[k]?) := by
  have hnodup : (n.toList.map Prod.fst).Nodup := by
    rw [ExtTreeMap.map_fst_toList_eq_keys]
    exact ExtTreeMap.nodup_keys
  cases hk : n[k]? with
  | none =>
    refine getElem?_foldl_merge_of_notMem f m ?_
    rw [ExtTreeMap.map_fst_toList_eq_keys, ExtTreeMap.mem_keys, ExtTreeMap.mem_iff_isSome_getElem?,
      hk]
    exact Bool.false_ne_true
  | some v =>
    obtain ⟨l, l', hl⟩ := List.append_of_mem (ExtTreeMap.mem_toList_iff_getElem?_eq_some.mpr hk)
    rw [hl, List.map_append, List.map_cons, List.nodup_middle, List.nodup_cons, List.mem_append,
      not_or] at hnodup
    rw [hl, List.foldl_append, List.foldl_cons,
      getElem?_foldl_merge_of_notMem f _ hnodup.1.2, ExtTreeMap.getElem?_insert_eq, if_pos rfl,
      getElem?_foldl_merge_of_notMem f m hnodup.1.1]
    rfl

/-- What the entries of the map add up to. -/
def Std.ExtTreeMap.sumOf (m : ExtTreeMap α β cmp) (f : α → β → ℕ) : ℕ :=
  (m.toList.map fun e => f e.1 e.2).sum

@[simp]
theorem Std.ExtTreeMap.sumOf_empty (f : α → β → ℕ) : (∅ : ExtTreeMap α β cmp).sumOf f = 0 := rfl

/-- An entry, and the entries under the other keys. -/
theorem Std.ExtTreeMap.toList_perm {m : ExtTreeMap α β cmp} {k : α} {v : β} (h : m[k]? = some v) :
    m.toList.Perm ((k, v) :: (m.erase k).toList) := by
  have hnodup : ∀ n : ExtTreeMap α β cmp, n.toList.Nodup := fun n => by
    refine List.Nodup.of_map Prod.fst ?_
    rw [ExtTreeMap.map_fst_toList_eq_keys]
    exact ExtTreeMap.nodup_keys
  have hgone : (k, v) ∉ (m.erase k).toList := by
    rw [ExtTreeMap.mem_toList_iff_getElem?_eq_some, ExtTreeMap.getElem?_erase_eq, if_pos rfl]
    simp
  refine (List.perm_ext_iff_of_nodup (hnodup m) (List.nodup_cons.mpr ⟨hgone, hnodup _⟩)).mpr ?_
  rintro ⟨a, w⟩
  rw [List.mem_cons, ExtTreeMap.mem_toList_iff_getElem?_eq_some,
    ExtTreeMap.mem_toList_iff_getElem?_eq_some, ExtTreeMap.getElem?_erase_eq, Prod.mk.injEq]
  split_ifs with ha
  · rw [← ha, h]
    simp [eq_comm]
  · simp [Ne.symm ha]

/-- Writing an entry replaces what was under its key. -/
theorem Std.ExtTreeMap.sumOf_insert (m : ExtTreeMap α β cmp) (f : α → β → ℕ) (k : α) (v : β) :
    (m.insert k v).sumOf f + m[k]?.elim 0 (f k) = m.sumOf f + f k v := by
  have hsum : ∀ {n : ExtTreeMap α β cmp} {w : β}, n[k]? = some w →
      n.sumOf f = f k w + (n.erase k).sumOf f := by
    intro n w hw
    rw [sumOf, ((ExtTreeMap.toList_perm hw).map _).sum_nat, List.map_cons, List.sum_cons, sumOf]
  have herase : (m.insert k v).erase k = m.erase k := by
    refine ExtTreeMap.ext_getElem? fun a => ?_
    simp only [ExtTreeMap.getElem?_erase_eq, ExtTreeMap.getElem?_insert_eq]
    split_ifs <;> rfl
  rw [hsum (ExtTreeMap.getElem?_insert_self ..), herase]
  cases hk : m[k]? with
  | none => rw [ExtTreeMap.erase_of_getElem?_eq_none hk, Option.elim_none]; omega
  | some w => rw [hsum hk, Option.elim_some]; omega

end Lookup

namespace Tally

/-- One more entry for `q`. -/
def bump [TransCmp ord] (t : ExtTreeMap γ ℕ ord) (q : γ) : ExtTreeMap γ ℕ ord :=
  t.insert q (t[q]?.getD 0 + 1)

/-- One entry fewer for `q`; a count of zero is removed. -/
def drop [TransCmp ord] (t : ExtTreeMap γ ℕ ord) (q : γ) : ExtTreeMap γ ℕ ord :=
  match t[q]? with
  | none => t
  | some n => if n - 1 = 0 then t.erase q else t.insert q (n - 1)

/-- A count as it is stored: absent when zero. -/
def stored (n : ℕ) : Option ℕ := if n = 0 then none else some n

theorem getD_stored (n : ℕ) : (stored n).getD 0 = n := by
  unfold stored
  split_ifs with h
  · simp [h]
  · rfl

section Count

variable [TransCmp cmp] [LawfulEqCmp cmp] [DecidableEq γ] (own : α → β → Option γ)

/-- The number of entries of `m` that `q` owns. -/
def count (m : ExtTreeMap α β cmp) (q : γ) : ℕ := (m.filter fun k v => own k v == some q).size

@[simp]
theorem count_empty (q : γ) : count own (∅ : ExtTreeMap α β cmp) q = 0 := by
  rw [count, ← ExtTreeMap.eq_empty_iff_size_eq_zero]
  refine ExtTreeMap.ext_getElem? fun k => ?_
  rw [ExtTreeMap.getElem?_filter', ExtTreeMap.getElem?_empty]
  rfl

variable [DecidableEq α]

theorem count_insert {m : ExtTreeMap α β cmp} {k : α} (hk : m[k]? = none) (v : β) (q : γ) :
    count own (m.insert k v) q = count own m q + if own k v = some q then 1 else 0 := by
  have hnew : k ∉ m.filter fun k v => own k v == some q := by
    rw [ExtTreeMap.mem_iff_isSome_getElem?, ExtTreeMap.getElem?_filter', hk]
    simp
  split_ifs with hv
  · have hfilter : (m.insert k v).filter (fun k v => own k v == some q) =
        (m.filter fun k v => own k v == some q).insert k v := by
      refine ExtTreeMap.ext_getElem? fun a => ?_
      simp only [ExtTreeMap.getElem?_filter', ExtTreeMap.getElem?_insert_eq]
      split_ifs with ha
      · subst ha
        simp [hv]
      · rfl
    rw [count, hfilter, ExtTreeMap.size_insert, if_neg (by rwa [ExtTreeMap.contains_iff_mem]),
      count]
  · have hfilter : (m.insert k v).filter (fun k v => own k v == some q) =
        m.filter fun k v => own k v == some q := by
      refine ExtTreeMap.ext_getElem? fun a => ?_
      simp only [ExtTreeMap.getElem?_filter', ExtTreeMap.getElem?_insert_eq]
      split_ifs with ha
      · subst ha
        simp [hv, hk]
      · rfl
    rw [count, hfilter, count, Nat.add_zero]

/-- Putting an erased entry back. -/
theorem insert_erase_self {m : ExtTreeMap α β cmp} {k : α} {v : β} (hk : m[k]? = some v) :
    (m.erase k).insert k v = m := by
  refine ExtTreeMap.ext_getElem? fun a => ?_
  rw [ExtTreeMap.insert_erase, ExtTreeMap.getElem?_insert_eq]
  split_ifs with ha
  · rw [← ha, hk]
  · rfl

theorem count_erase {m : ExtTreeMap α β cmp} {k : α} {v : β} (hk : m[k]? = some v) (q : γ) :
    count own m q = count own (m.erase k) q + if own k v = some q then 1 else 0 := by
  have herase : (m.erase k)[k]? = none := by rw [ExtTreeMap.getElem?_erase_eq, if_pos rfl]
  rw [← count_insert own herase v q, insert_erase_self hk]

theorem count_eq_zero_iff (m : ExtTreeMap α β cmp) (q : γ) :
    count own m q = 0 ↔ ∀ k v, m[k]? = some v → own k v ≠ some q := by
  rw [count, ← ExtTreeMap.eq_empty_iff_size_eq_zero]
  constructor
  · intro h k v hk hown
    have hmem : (m.filter fun k v => own k v == some q)[k]? = some v := by
      rw [ExtTreeMap.getElem?_filter', hk]
      simp [hown]
    rw [h] at hmem
    simp at hmem
  · intro h
    refine ExtTreeMap.ext_getElem? fun k => ?_
    rw [ExtTreeMap.getElem?_filter', ExtTreeMap.getElem?_empty]
    cases hk : m[k]? with
    | none => rfl
    | some v => simp [h k v hk]

end Count

end Tally

section Tally

variable [TransCmp cmp] [LawfulEqCmp cmp] [DecidableEq α]
variable [TransCmp ord] [LawfulEqCmp ord] [DecidableEq γ]

/-- `c` counts the entries of `m` by owner and stores no zero. -/
def Tally (own : α → β → Option γ) (m : ExtTreeMap α β cmp) (t : ExtTreeMap γ ℕ ord) : Prop :=
  ∀ q, t[q]? = Tally.stored (Tally.count own m q)

namespace Tally

variable {own : α → β → Option γ} {m : ExtTreeMap α β cmp} {t t' : ExtTreeMap γ ℕ ord}

theorem empty : Tally own (∅ : ExtTreeMap α β cmp) (∅ : ExtTreeMap γ ℕ ord) := by
  intro q
  simp [stored]

/-- The tally of a map is unique. -/
theorem ext (h : Tally own m t) (h' : Tally own m t') : t = t' :=
  ExtTreeMap.ext_getElem? fun q => by rw [h q, h' q]

/-- The stored count of an owner, zero when absent, is the number of its entries. -/
theorem getD_eq (h : Tally own m t) (q : γ) : t[q]?.getD 0 = count own m q := by
  rw [h q, getD_stored]

/-- The owners with a stored count are those with an entry. -/
theorem contains_iff (h : Tally own m t) (q : γ) :
    t.contains q = true ↔ ∃ k v, m[k]? = some v ∧ own k v = some q := by
  rw [ExtTreeMap.contains_eq_isSome_getElem?, h q, stored]
  split_ifs with hzero
  · simpa using (count_eq_zero_iff own m q).mp hzero
  · simpa using (count_eq_zero_iff own m q).not.mp hzero

/-- A new entry is counted for its owner. -/
theorem insert (h : Tally own m t) {k : α} (hk : m[k]? = none) {v : β} {q : γ}
    (hq : own k v = some q) : Tally own (m.insert k v) (bump t q) := by
  intro p
  rw [bump, ExtTreeMap.getElem?_insert_eq, count_insert own hk, hq, h.getD_eq, h p]
  by_cases hp : q = p
  · subst hp
    simp [stored]
  · simp [hp]

/-- A new entry without an owner is not counted. -/
theorem insert_unowned (h : Tally own m t) {k : α} (hk : m[k]? = none) {v : β}
    (hq : own k v = none) : Tally own (m.insert k v) t := by
  intro p
  rw [count_insert own hk, hq, h p]
  simp

/-- Rewriting an entry without changing its owner leaves the tally alone. -/
theorem insert_same (h : Tally own m t) {k : α} {v w : β} (hk : m[k]? = some v)
    (hown : own k w = own k v) : Tally own (m.insert k w) t := by
  intro p
  have herase : (m.erase k)[k]? = none := by rw [ExtTreeMap.getElem?_erase_eq, if_pos rfl]
  rw [← ExtTreeMap.insert_erase, count_insert own herase, hown, ← count_erase own hk, h p]

/-- An erased entry is no longer counted for its owner. -/
theorem erase (h : Tally own m t) {k : α} {v : β} (hk : m[k]? = some v) {q : γ}
    (hq : own k v = some q) : Tally own (m.erase k) (drop t q) := by
  intro p
  have hcount := count_erase own hk p
  have hcountq := count_erase own hk q
  rw [hq] at hcount hcountq
  simp only [if_true] at hcountq
  have hc : t[q]? = some (count own (m.erase k) q + 1) := by
    rw [h q, hcountq]
    rfl
  rw [drop, hc]
  dsimp only
  rw [Nat.add_sub_cancel]
  by_cases hp : q = p
  · subst hp
    split_ifs with hz
    · rw [ExtTreeMap.getElem?_erase_eq, if_pos rfl, hz]
      rfl
    · rw [ExtTreeMap.getElem?_insert_eq, if_pos rfl, stored, if_neg hz]
  · have hcp : count own m p = count own (m.erase k) p := by simpa [hp] using hcount
    split_ifs with hz
    · rw [ExtTreeMap.getElem?_erase_eq, if_neg hp, h p, hcp]
    · rw [ExtTreeMap.getElem?_insert_eq, if_neg hp, h p, hcp]

/-- Erasing an entry without an owner leaves the tally alone. -/
theorem erase_unowned (h : Tally own m t) {k : α} {v : β} (hk : m[k]? = some v)
    (hq : own k v = none) : Tally own (m.erase k) t := by
  intro p
  have hcount := count_erase own hk p
  rw [hq] at hcount
  rw [h p, hcount]
  simp

end Tally

end Tally
