import Mathlib.Data.List.Induction
import Mathlib.Data.List.ReduceOption

/-!
# Programs that realize labelled steps

An abstract system has states `A`, labels `E` and a labelled step relation; `Trace` is its finite
runs. A program over concrete states `σ` that may raise errors realizes the system when each of
its terminating runs is a finite run of the system: `Refinement.Realizes R x a Q` says that from
every concrete state that stands for `a` the program `x` returns, in a concrete state that stands
for an abstract state reached from `a`, and that the result, the labels on the way and the state
reached satisfy `Q`. A refinement may also keep an account of the labels in the concrete state.

The rules below compose realizations along the monad and along lists, so that a program is
verified by verifying the bodies of its loops.

## Main definitions

* `Trace` — finite runs with their labels.
* `Refinement`, `Refinement.Realizes` — the judgment.
* `Grouped`, `Chained` — a loop turn by turn, with its labels or with its states.
-/

universe u

variable {A E ι : Type*} {σ ε β γ : Type u}

/-! ### Traces -/

/-- The finite runs of a labelled step relation, with their labels in order. -/
inductive Trace (step : A → E → A → Prop) : A → List E → A → Prop
  | nil (a : A) : Trace step a [] a
  | cons {a b c : A} {e : E} {evs : List E} :
      step a e b → Trace step b evs c → Trace step a (e :: evs) c

namespace Trace

variable {step : A → E → A → Prop} {a b c : A} {e : E} {evs evs' : List E}

theorem single (h : step a e b) : Trace step a [e] b := cons h (nil b)

theorem append (h : Trace step a evs b) (h' : Trace step b evs' c) :
    Trace step a (evs ++ evs') c := by
  induction h with
  | nil => exact h'
  | cons hstep _ ih => exact cons hstep (ih h')

/-- A run over a concatenation stops in between. -/
theorem split (h : Trace step a (evs ++ evs') c) :
    ∃ b, Trace step a evs b ∧ Trace step b evs' c := by
  induction evs generalizing a with
  | nil => exact ⟨a, nil a, h⟩
  | cons e evs ih =>
    cases h with
    | cons hstep htail =>
      obtain ⟨b, hb, hc⟩ := ih htail
      exact ⟨b, cons hstep hb, hc⟩

theorem of_single (h : Trace step a [e] c) : step a e c := by
  cases h with
  | cons hstep hnil =>
    cases hnil
    exact hstep

/-- A run starts with a step. -/
theorem split_first (h : Trace step a (e :: evs) c) : ∃ b, step a e b ∧ Trace step b evs c := by
  cases h with
  | cons hstep hrest => exact ⟨_, hstep, hrest⟩

/-- A run ends with a step. -/
theorem split_last (h : Trace step a (evs ++ [e]) c) : ∃ b, Trace step a evs b ∧ step b e c := by
  obtain ⟨b, hb, hlast⟩ := h.split
  exact ⟨b, hb, hlast.of_single⟩

/-- What relates the labels of a run to the state it reaches: shown for the empty run, and for a
run that is one step longer. -/
theorem history {P : List E → A → Prop} (hnil : P [] a)
    (hsnoc : ∀ evs e b c, Trace step a evs b → P evs b → step b e c → P (evs ++ [e]) c)
    (h : Trace step a evs b) : P evs b := by
  induction evs using List.reverseRecOn generalizing b with
  | nil =>
    cases h
    exact hnil
  | append_singleton evs e ih =>
    obtain ⟨b, hb, hstep⟩ := h.split_last
    exact hsnoc evs e b _ hb (ih hb) hstep

/-- A label of a run is that of a step. -/
theorem exists_step (h : Trace step a evs b) (he : e ∈ evs) : ∃ c d, step c e d := by
  induction h with
  | nil => cases he
  | cons hs _ ih =>
    rcases List.mem_cons.mp he with rfl | he
    · exact ⟨_, _, hs⟩
    · exact ih he

/-- What every step on the way preserves, a run preserves. -/
theorem preserves {P : A → Prop} (h : Trace step a evs b)
    (hstep : ∀ a e b, e ∈ evs → step a e b → P a → P b) (ha : P a) : P b := by
  induction h with
  | nil => exact ha
  | cons hs _ ih =>
    refine ih (fun a e b he => hstep a e b (List.mem_cons_of_mem _ he)) ?_
    exact hstep _ _ _ List.mem_cons_self hs ha

end Trace

/-- The labels of a loop over `xs` with results `rs`: each turn contributes a group of labels. -/
inductive Grouped (P : ι → β → List E → Prop) : List ι → List β → List E → Prop
  | nil : Grouped P [] [] []
  | cons {x : ι} {r : β} {evs evs' : List E} {xs : List ι} {rs : List β} :
      P x r evs → Grouped P xs rs evs' → Grouped P (x :: xs) (r :: rs) (evs ++ evs')

namespace Grouped

variable {P : ι → β → List E → Prop} {xs : List ι} {rs : List β} {evs : List E}

/-- Every label belongs to some turn. -/
theorem exists_turn (h : Grouped P xs rs evs) {e : E} (he : e ∈ evs) :
    ∃ x ∈ xs, ∃ r ∈ rs, ∃ group, P x r group ∧ e ∈ group := by
  induction h with
  | nil => cases he
  | cons hturn _ ih =>
    rcases List.mem_append.mp he with he | he
    · exact ⟨_, List.mem_cons_self, _, List.mem_cons_self, _, hturn, he⟩
    · obtain ⟨x, hx, r, hr, group, hP, hmem⟩ := ih he
      exact ⟨x, List.mem_cons_of_mem _ hx, r, List.mem_cons_of_mem _ hr, group, hP, hmem⟩

/-- Every result belongs to some turn. -/
theorem exists_group (h : Grouped P xs rs evs) {r : β} (hr : r ∈ rs) :
    ∃ x ∈ xs, ∃ group, P x r group ∧ ∀ e ∈ group, e ∈ evs := by
  induction h with
  | nil => cases hr
  | @cons x r' group rest xs rs hturn _ ih =>
    rcases List.mem_cons.mp hr with rfl | hr
    · exact ⟨x, List.mem_cons_self, group, hturn, fun e he => List.mem_append_left _ he⟩
    · obtain ⟨x, hx, group, hP, hmem⟩ := ih hr
      exact ⟨x, List.mem_cons_of_mem _ hx, group, hP, fun e he =>
        List.mem_append_right _ (hmem e he)⟩

end Grouped

/-- A turn with an optional result: one label, related to the result, or none. -/
def AtMostOne (S : ι → β → E → Prop) (x : ι) (r : Option β) (evs : List E) : Prop :=
  match r with
  | none => evs = []
  | some y => ∃ e, evs = [e] ∧ S x y e

namespace Grouped

variable {S : ι → β → E → Prop} {xs : List ι} {rs : List (Option β)} {evs : List E}

/-- Every label belongs to a turn with a result. -/
theorem exists_result (h : Grouped (AtMostOne S) xs rs evs) {e : E} (he : e ∈ evs) :
    ∃ x ∈ xs, ∃ y, some y ∈ rs ∧ S x y e := by
  obtain ⟨x, hx, r, hr, group, hturn, hmem⟩ := h.exists_turn he
  cases r with
  | none => rw [show group = [] from hturn] at hmem; cases hmem
  | some y =>
    obtain ⟨e', rfl, hS⟩ := hturn
    exact ⟨x, hx, y, hr, List.mem_singleton.mp hmem ▸ hS⟩

/-- The labels tell the results, in order. -/
theorem map_eq_reduceOption {g : E → Option β} (hg : ∀ x y e, S x y e → g e = some y)
    (h : Grouped (AtMostOne S) xs rs evs) : evs.map g = rs.reduceOption.map some := by
  induction h with
  | nil => rfl
  | @cons x r evs _ _ _ hturn _ ih =>
    cases r with
    | none =>
      rw [show evs = [] from hturn, List.nil_append, List.reduceOption_cons_of_none, ih]
    | some y =>
      obtain ⟨e, rfl, hS⟩ := hturn
      rw [List.singleton_append, List.map_cons, hg x y e hS, List.reduceOption_cons_of_some,
        List.map_cons, ih]

end Grouped

/-- A loop over `xs` with results `rs`, state by state. -/
inductive Chained (T : A → ι → β → A → Prop) : A → List ι → List β → A → Prop
  | nil (a : A) : Chained T a [] [] a
  | cons {a b c : A} {x : ι} {r : β} {xs : List ι} {rs : List β} :
      T a x r b → Chained T b xs rs c → Chained T a (x :: xs) (r :: rs) c

namespace Chained

variable {T T' : A → ι → β → A → Prop} {a b : A} {xs xs' : List ι} {rs : List β}

theorem length_eq (h : Chained T a xs rs b) : rs.length = xs.length := by
  induction h with
  | nil => rfl
  | cons _ _ ih => rw [List.length_cons, List.length_cons, ih]

/-- A loop over a concatenation is in between at some point. -/
theorem split (h : Chained T a (xs ++ xs') rs b) :
    ∃ rs₁ rs₂ mid, rs = rs₁ ++ rs₂ ∧ Chained T a xs rs₁ mid ∧ Chained T mid xs' rs₂ b := by
  induction xs generalizing a rs with
  | nil => exact ⟨[], rs, a, rfl, .nil a, h⟩
  | cons x xs ih =>
    cases h with
    | cons hturn hrest =>
      obtain ⟨rs₁, rs₂, mid, rfl, hfirst, hlast⟩ := ih hrest
      exact ⟨_ :: rs₁, rs₂, mid, rfl, .cons hturn hfirst, hlast⟩

end Chained

/-! ### Realization -/

/-- An abstract system, what a concrete state stands for, and the account of labels that concrete
states keep. -/
structure Refinement (A E : Type*) (σ : Type u) where
  step : A → E → A → Prop
  rel : A → σ → Prop
  account : List E → σ → σ → Prop
  account_nil : ∀ s, account [] s s
  account_append : ∀ {evs evs' s t u}, account evs s t → account evs' t u →
    account (evs ++ evs') s u

namespace Refinement

variable (R : Refinement A E σ) {a : A}

/-- From every state that stands for `a` the program returns, having made a run of the abstract
system from `a`; the result, the labels and the state reached satisfy `Q`. -/
def Realizes (x : EStateM ε σ β) (a : A) (Q : β → List E → A → Prop) : Prop :=
  ∀ s, R.rel a s → ∃ r s' evs a', x s = .ok r s' ∧ Trace R.step a evs a' ∧ R.rel a' s' ∧
    R.account evs s s' ∧ Q r evs a'

/-- From every state that stands for `a` the program raises an error with `P` and leaves the state
alone. -/
def Rejects (x : EStateM ε σ β) (a : A) (P : ε → Prop) : Prop :=
  ∀ s, R.rel a s → ∃ e, x s = .error e s ∧ P e

namespace Realizes

variable {R} {x : EStateM ε σ β} {f : β → EStateM ε σ γ} {Q Q' : β → List E → A → Prop}

theorem pure {r : β} (h : Q r [] a) : R.Realizes (Pure.pure r : EStateM ε σ β) a Q := fun s hs =>
  ⟨r, s, [], a, rfl, Trace.nil a, hs, R.account_nil s, h⟩

theorem mono (h : R.Realizes x a Q) (hQ : ∀ r evs a', Trace R.step a evs a' → Q r evs a' →
    Q' r evs a') : R.Realizes x a Q' := by
  intro s hs
  obtain ⟨r, s', evs, a', hx, htrace, hs', hacc, hr⟩ := h s hs
  exact ⟨r, s', evs, a', hx, htrace, hs', hacc, hQ r evs a' htrace hr⟩

/-- Sequencing: the labels of the second program follow those of the first. -/
theorem bind {Q' : γ → List E → A → Prop} (h : R.Realizes x a Q)
    (hf : ∀ r evs a', Trace R.step a evs a' → Q r evs a' →
      R.Realizes (f r) a' fun r' evs' a'' => Q' r' (evs ++ evs') a'') :
    R.Realizes (x >>= f) a Q' := by
  intro s hs
  obtain ⟨r, s', evs, a', hx, htrace, hs', hacc, hr⟩ := h s hs
  obtain ⟨r', s'', evs', a'', hf', htrace', hs'', hacc', hr'⟩ := hf r evs a' htrace hr s' hs'
  refine ⟨r', s'', evs ++ evs', a'', ?_, htrace.append htrace', hs'',
    R.account_append hacc hacc', hr'⟩
  simp only [Bind.bind, EStateM.bind, hx]
  exact hf'

/-- A program that only looks at the state, and sees the same in every state that stands for
`a`. -/
theorem bind_observe {Q' : γ → List E → A → Prop} {v : β} (hx : ∀ s, R.rel a s → x s = .ok v s)
    (hf : R.Realizes (f v) a Q') : R.Realizes (x >>= f) a Q' := by
  intro s hs
  obtain ⟨r, s', evs, a', hf', h⟩ := hf s hs
  refine ⟨r, s', evs, a', ?_, h⟩
  simp only [Bind.bind, EStateM.bind, hx s hs]
  exact hf'

/-- A program may be verified at a state that stands for `a`. -/
theorem of_rel (h : ∀ s, R.rel a s → R.Realizes x a Q) : R.Realizes x a Q := fun s hs => h s hs s hs

/-- A loop over a list with results: `I` holds of the state reached and of what is left to do. -/
theorem mapM {f : ι → EStateM ε σ β} {P : ι → β → List E → Prop} {I : A → List ι → Prop}
    (hf : ∀ x xs a, I a (x :: xs) → R.Realizes (f x) a fun r evs a' => P x r evs ∧ I a' xs) :
    ∀ (xs : List ι) (a : A), I a xs →
      R.Realizes (xs.mapM f) a fun rs evs a' => Grouped P xs rs evs ∧ I a' []
  | [], a, hI => by
    rw [List.mapM_nil]
    exact pure ⟨.nil, hI⟩
  | x :: xs, a, hI => by
    rw [List.mapM_cons]
    refine bind (hf x xs a hI) fun r evs a' _ ⟨hturn, hI'⟩ => ?_
    refine bind (mapM hf xs a' hI') fun rs evs' a'' _ ⟨hrest, hI''⟩ => ?_
    exact pure ⟨by simpa using Grouped.cons hturn hrest, hI''⟩

/-- A loop over a list with results, state by state. -/
theorem mapM_chained {f : ι → EStateM ε σ β} {P : ι → β → List E → Prop}
    {T : A → ι → β → A → Prop} {I : A → List ι → Prop}
    (hf : ∀ x xs a, I a (x :: xs) →
      R.Realizes (f x) a fun r evs a' => P x r evs ∧ T a x r a' ∧ I a' xs) :
    ∀ (xs : List ι) (a : A), I a xs →
      R.Realizes (xs.mapM f) a fun rs evs a' => Grouped P xs rs evs ∧ Chained T a xs rs a'
  | [], a, hI => by
    rw [List.mapM_nil]
    exact pure ⟨.nil, .nil a⟩
  | x :: xs, a, hI => by
    rw [List.mapM_cons]
    refine bind (hf x xs a hI) fun r evs a' _ ⟨hturn, hT, hI'⟩ => ?_
    refine bind (mapM_chained hf xs a' hI') fun rs evs' a'' _ ⟨hrest, hchain⟩ => ?_
    exact pure ⟨by simpa using Grouped.cons hturn hrest, .cons hT hchain⟩

end Realizes

/-- What the first program refuses, the sequence refuses. -/
theorem Rejects.bind {R : Refinement A E σ} {x : EStateM ε σ β} {f : β → EStateM ε σ γ}
    {P : ε → Prop} (h : R.Rejects x a P) : R.Rejects (x >>= f) a P := by
  intro s hs
  obtain ⟨e, hx, he⟩ := h s hs
  refine ⟨e, ?_, he⟩
  simp only [Bind.bind, EStateM.bind, hx]

end Refinement

/-! ### A loop that returns -/

/-- A loop with results that returns has one result for each turn, and each turn starts where the
ones before it end. -/
theorem mapM_turns {f : ι → EStateM ε σ β} {xs : List ι} {s t : σ} {rs : List β}
    (h : xs.mapM f s = .ok rs t) :
    rs.length = xs.length ∧ ∀ k x, xs[k]? = some x → ∃ s₁ s₂ r,
      (xs.take k).mapM f s = .ok (rs.take k) s₁ ∧ f x s₁ = .ok r s₂ ∧ rs[k]? = some r := by
  induction xs generalizing s rs with
  | nil =>
    cases h
    exact ⟨rfl, fun k x hx => by cases hx⟩
  | cons x xs ih =>
    rw [List.mapM_cons] at h
    simp only [Bind.bind, EStateM.bind] at h
    cases hfirst : f x s with
    | error e s₂ =>
      rw [hfirst] at h
      cases h
    | ok r s₂ =>
      simp only [hfirst] at h
      cases hrest : xs.mapM f s₂ with
      | error e s₃ =>
        rw [hrest] at h
        cases h
      | ok rest s₃ =>
        rw [hrest] at h
        cases h
        obtain ⟨hlen, hturns⟩ := ih hrest
        refine ⟨by rw [List.length_cons, List.length_cons, hlen], fun k y hy => ?_⟩
        cases k with
        | zero =>
          cases hy
          exact ⟨s, s₂, r, rfl, hfirst, rfl⟩
        | succ k =>
          obtain ⟨s₁, s₄, r', hbefore, hturn, hr'⟩ := hturns k y hy
          refine ⟨s₁, s₄, r', ?_, hturn, hr'⟩
          rw [List.take_succ_cons, List.mapM_cons, List.take_succ_cons]
          simp only [Bind.bind, EStateM.bind, hfirst, hbefore]
          rfl
