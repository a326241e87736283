import Sepp.Library.Realize
import Sepp.Spec.Counters
import Sepp.Spec.Lookup

/-!
# The refinement between the store and its abstract state

A transaction state stands for an abstract state when its rows and indexes represent it and no
read is going to fail; what failing reads change is the subject of `Sepp.Refine.Oblivious`. The
account that the cycle keeps of the events is its dirty flag, the queues that got ready jobs and
the counters of the metrics.

## Main definitions

* `Recorded` — the cycle says what happened.
* `storeRefinement` — the refinement, and `Realizes` and `Rejects` for it.
-/

open Std

namespace Sepp

variable [Prost]

/-! ### The account of a cycle -/

/-- The cycle `c'` records the events that happened since `c`. -/
structure Recorded (evs : List Event) (c c' : Cycle) : Prop where
  dirty : c'.dirty = (c.dirty || evs.any Event.writes)
  kept : ∀ queue, queue ∈ c.newReady → queue ∈ c'.newReady
  readied : ∀ e ∈ evs, ∀ queue, e.readies = some queue → queue ∈ c'.newReady
  counted : Notes (evs.flatMap Event.notes) c c'

namespace Recorded

variable {evs evs' : List Event} {c c' c'' : Cycle} {e : Event}

theorem nil (c : Cycle) : Recorded [] c c where
  dirty := by simp
  kept _ h := h
  readied e he := by cases he
  counted := .of_eq rfl

theorem append (h : Recorded evs c c') (h' : Recorded evs' c' c'') :
    Recorded (evs ++ evs') c c'' where
  dirty := by rw [h'.dirty, h.dirty, List.any_append, Bool.or_assoc]
  kept queue hq := h'.kept queue (h.kept queue hq)
  readied e he queue hq := by
    rcases List.mem_append.mp he with he | he
    · exact h'.kept queue (h.readied e he queue hq)
    · exact h'.readied e he queue hq
  counted := by
    rw [List.flatMap_append]
    exact h.counted.append h'.counted

/-- An event that changes the store and readies no queue. -/
theorem of_writes (hw : e.writes = true) (hr : e.readies = none) (hdirty : c'.dirty = true)
    (hkept : c'.newReady = c.newReady) (hnotes : Notes e.notes c c') : Recorded [e] c c' where
  dirty := by simp [hdirty, hw]
  kept queue hq := by rwa [hkept]
  readied e' he queue hq := by
    rw [List.mem_singleton.mp he, hr] at hq
    cases hq
  counted := by simpa using hnotes

/-- An event that changes the store and readies a queue. -/
theorem of_readies {queue : String} (hw : e.writes = true) (hr : e.readies = some queue)
    (hdirty : c'.dirty = true) (hkept : c'.newReady = c.newReady.insert queue)
    (hnotes : Notes e.notes c c') : Recorded [e] c c' where
  dirty := by simp [hdirty, hw]
  kept q hq := by
    rw [hkept]
    exact ExtTreeSet.mem_insert.mpr (.inr hq)
  readied e' he q hq := by
    rw [List.mem_singleton.mp he, hr] at hq
    rw [hkept, ← Option.some.inj hq]
    simp
  counted := by simpa using hnotes

/-- An event that changes nothing. -/
theorem of_silent (hw : e.writes = false) (hr : e.readies = none) (hdirty : c'.dirty = c.dirty)
    (hkept : c'.newReady = c.newReady) (hnotes : Notes e.notes c c') : Recorded [e] c c' where
  dirty := by simp [hdirty, hw]
  kept queue hq := by rwa [hkept]
  readied e' he queue hq := by
    rw [List.mem_singleton.mp he, hr] at hq
    cases hq
  counted := by simpa using hnotes

/-- A cycle that is not dirty has recorded no change. -/
theorem eq_of_clean {a a' : Image} (h : Recorded evs c c') (htrace : Trace Step a evs a')
    (hclean : c'.dirty = false) : a' = a := by
  rw [h.dirty, Bool.or_eq_false_iff, List.any_eq_false] at hclean
  refine htrace.preserves (P := fun b => b = a) (fun b e b' he hstep hb => ?_) rfl
  rw [hstep.eq_of_silent (by simpa using hclean.2 e he), hb]

end Recorded

/-! ### The refinement -/

/-- A transaction state stands for the abstract state that its rows and indexes represent. -/
def storeRefinement : Refinement Image Event TxState where
  step := Step
  rel a s := Represents a s.rows s.indexes ∧ s.faults = fun _ => none
  account evs s s' := Recorded evs s.cycle s'.cycle
  account_nil s := Recorded.nil s.cycle
  account_append := Recorded.append

/-- The operation makes a run of events. -/
abbrev Realizes {α : Type} (x : TxM α) (a : Image) (Q : α → List Event → Image → Prop) : Prop :=
  storeRefinement.Realizes x a Q

/-- The operation is refused and changes nothing. -/
abbrev Rejects {α : Type} (x : TxM α) (a : Image) (P : Status → Prop) : Prop :=
  storeRefinement.Rejects x a P

/-- Realization, with the parts of the state named. -/
theorem realizes_iff {α : Type} {x : TxM α} {a : Image} {Q : α → List Event → Image → Prop} :
    Realizes x a Q ↔ ∀ rows idx c, Represents a rows idx →
      ∃ r rows' idx' c' evs a', x ⟨rows, idx, c, fun _ => none⟩ =
        .ok r ⟨rows', idx', c', fun _ => none⟩ ∧ Trace Step a evs a' ∧
        Represents a' rows' idx' ∧ Recorded evs c c' ∧ Q r evs a' := by
  constructor
  · intro h rows idx c hrep
    obtain ⟨r, ⟨rows', idx', c', faults⟩, evs, a', hx, htrace, ⟨hrep', rfl⟩, hacc, hQ⟩ :=
      h ⟨rows, idx, c, fun _ => none⟩ ⟨hrep, rfl⟩
    exact ⟨r, rows', idx', c', evs, a', hx, htrace, hrep', hacc, hQ⟩
  · rintro h ⟨rows, idx, c, _⟩ ⟨hrep, rfl⟩
    obtain ⟨r, rows', idx', c', evs, a', hx, htrace, hrep', hacc, hQ⟩ := h rows idx c hrep
    exact ⟨r, ⟨rows', idx', c', fun _ => none⟩, evs, a', hx, htrace, ⟨hrep', rfl⟩, hacc, hQ⟩

/-- A body that makes one event. -/
theorem Realizes.of_event {α : Type} {x : TxM α} {a : Image} {Q : α → List Event → Image → Prop}
    (h : ∀ rows idx c, Represents a rows idx → ∃ r rows' idx' c' e a',
      x ⟨rows, idx, c, fun _ => none⟩ = .ok r ⟨rows', idx', c', fun _ => none⟩ ∧
        Step a e a' ∧ Represents a' rows' idx' ∧ Recorded [e] c c' ∧ Q r [e] a') :
    Realizes x a Q := by
  refine realizes_iff.mpr fun rows idx c hrep => ?_
  obtain ⟨r, rows', idx', c', e, a', hx, hstep, hrest⟩ := h rows idx c hrep
  exact ⟨r, rows', idx', c', [e], a', hx, Trace.single hstep, hrest⟩

/-- A body that does nothing. -/
theorem Realizes.of_silent {α : Type} {x : TxM α} {a : Image} {Q : α → List Event → Image → Prop}
    (h : ∀ rows idx c, Represents a rows idx → ∃ r,
      x ⟨rows, idx, c, fun _ => none⟩ = .ok r ⟨rows, idx, c, fun _ => none⟩ ∧ Q r [] a) :
    Realizes x a Q := by
  refine realizes_iff.mpr fun rows idx c hrep => ?_
  obtain ⟨r, hx, hQ⟩ := h rows idx c hrep
  exact ⟨r, rows, idx, c, [], a, hx, Trace.nil a, hrep, Recorded.nil c, hQ⟩

/-- The last step of every arm of `applyOp`: the result is wrapped. -/
theorem Realizes.wrap {α β : Type} {x : TxM α} {a : Image} {Q : α → List Event → Image → Prop}
    (f : α → β) (h : Realizes x a Q) :
    Realizes (do return f (← x)) a fun r evs a' => ∃ y, r = f y ∧ Q y evs a' := by
  refine Refinement.Realizes.bind h fun y evs a' _ hy => Refinement.Realizes.pure ?_
  rw [List.append_nil]
  exact ⟨y, rfl, hy⟩

/-- The indexes of an abstract state are what `getIndexes` returns. -/
theorem Realizes.bind_getIndexes {α : Type} {f : Indexes → TxM α} {a : Image}
    {Q : α → List Event → Image → Prop}
    (h : ∀ rows idx, Represents a rows idx → Realizes (f idx) a Q) :
    Realizes (getIndexes >>= f) a Q := by
  refine Refinement.Realizes.of_rel fun s hs => ?_
  refine Refinement.Realizes.bind_observe (v := s.indexes) (fun t ht => ?_) (h _ _ hs.1)
  rw [hs.1.idx_eq ht.1]
  rfl

/-! ### Running an operation on named parts -/

section Run

variable {α β : Type} (rows : Rows) (idx : Indexes) (c : Cycle) (ks : KeyspaceName)
  (key value : Bytes)

omit [Prost]

theorem bind_run (x : TxM α) (f : α → TxM β) (s : TxState) :
    (x >>= f) s = match x s with
      | .ok r s' => f r s'
      | .error e s' => .error e s' := by
  simp only [bind, EStateM.bind]
  cases x s <;> rfl

theorem bind_run_ok {x : TxM α} {f : α → TxM β} {s s' : TxState} {r : α} (h : x s = .ok r s') :
    (x >>= f) s = f r s' := by
  rw [bind_run, h]

theorem pure_run (r : α) (s : TxState) : (pure r : TxM α) s = .ok r s := rfl

theorem throw_run (e : Status) (s : TxState) : (throw e : TxM α) s = .error e s := rfl

theorem txGet_run : txGet ks key ⟨rows, idx, c, fun _ => none⟩ =
    .ok ((rows.get ks)[key]?) ⟨rows, idx, c, fun _ => none⟩ := rfl

theorem txInsert_run (faults : ℕ → Option String) : txInsert ks key value ⟨rows, idx, c, faults⟩ =
    .ok () ⟨rows.insert ks key value, idx, c, faults⟩ := rfl

theorem txRemove_run (faults : ℕ → Option String) : txRemove ks key ⟨rows, idx, c, faults⟩ =
    .ok () ⟨rows.erase ks key, idx, c, faults⟩ := rfl

theorem onIndexes_run (f : Indexes → Indexes) (faults : ℕ → Option String) :
    onIndexes f ⟨rows, idx, c, faults⟩ = .ok () ⟨rows, f idx, c, faults⟩ := rfl

theorem onCycle_run (f : Cycle → Cycle) (faults : ℕ → Option String) :
    onCycle f ⟨rows, idx, c, faults⟩ = .ok () ⟨rows, idx, f c, faults⟩ := rfl

theorem getIndexes_run (s : TxState) : getIndexes s = .ok s.indexes s := rfl

end Run

end Sepp
