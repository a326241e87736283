import Mathlib.Data.List.Nodup
import Mathlib.Data.List.Perm.Subperm
import Mathlib.Order.Defs.Unbundled

/-!
# Walking through pages

A reader asks for one page after the other, and passes the cursor of each page to the next request;
between the requests the source may change. If every page is in order, goes on behind the cursor it
was given and leaves out nothing up to the cursor it returns (`Pager.Sound`), then the walk returns
nothing twice, and a walk that has come to its end has returned all that was there all the time.

## Main definitions

* `Pager`, `Pager.walk`.
* `Pager.Sound` — what each page has to fulfil.

## Main results

* `Pager.Sound.walk_ordered`, `Pager.Sound.mem_walk`.
* `Pager.Sound.filter` — the same for a reader that leaves out some of the items.
* `Pager.Sound.finished_of_cursors` — a walk whose cursors are from a finite set ends.
-/

variable {ι P α : Type*}

/-- The element comes after the cursor. -/
def After (r : α → α → Prop) (cursor : Option α) (x : α) : Prop := ∀ c, cursor = some c → r c x

theorem after_none (r : α → α → Prop) (x : α) : After r none x := fun _ h => nomatch h

theorem After.trans {r : α → α → Prop} [IsTrans α r] {cursor : Option α} {c x : α}
    (h : After r cursor c) (hx : r c x) : After r cursor x := fun c' hc' =>
  IsTrans.trans c' c x (h c' hc') hx

/-- Reads a page behind a cursor from a source; the page has items, and the next cursor. -/
structure Pager (ι P α : Type*) where
  read : Option α → ι → P
  items : P → List α
  next : P → Option α

namespace Pager

variable (pager : Pager ι P α)

/-- The pages of a walk, each with its source. The walk ends with a page that has no cursor, or with
the last source. -/
def walk : Option α → List ι → List (ι × P)
  | _, [] => []
  | cursor, source :: sources =>
    (source, pager.read cursor source) ::
      match pager.next (pager.read cursor source) with
      | none => []
      | some c => walk (some c) sources

/-- All items of a walk. -/
def collected (visits : List (ι × P)) : List α := visits.flatMap fun visit => pager.items visit.2

/-- All cursors of a walk. -/
def cursors (visits : List (ι × P)) : List α := visits.filterMap fun visit => pager.next visit.2

theorem cursors_cons_none {visit : ι × P} (h : pager.next visit.2 = none)
    (visits : List (ι × P)) : pager.cursors (visit :: visits) = pager.cursors visits := by
  rw [cursors, List.filterMap_cons, h, cursors]

theorem cursors_cons_some {visit : ι × P} {c : α} (h : pager.next visit.2 = some c)
    (visits : List (ι × P)) : pager.cursors (visit :: visits) = c :: pager.cursors visits := by
  rw [cursors, List.filterMap_cons, h, cursors]

/-- The walk has come to a page without a cursor. -/
def Finished (visits : List (ι × P)) : Prop := ∃ visit ∈ visits, pager.next visit.2 = none

variable {pager} {r : α → α → Prop} {has : ι → α → Prop} {good : Option α → Prop}
  {cursor : Option α}

/-- Every page that is read behind a good cursor is in order and behind the cursor, returns a good
cursor further on, and has all up to there. -/
structure Sound (pager : Pager ι P α) (r : α → α → Prop) (has : ι → α → Prop)
    (good : Option α → Prop) : Prop where
  ordered : ∀ cursor source, good cursor → (pager.items (pager.read cursor source)).Pairwise r
  item : ∀ cursor source, good cursor → ∀ x ∈ pager.items (pager.read cursor source),
    has source x ∧ After r cursor x
  advances : ∀ cursor source c, good cursor → pager.next (pager.read cursor source) = some c →
    good (some c) ∧ After r cursor c ∧ ∀ x ∈ pager.items (pager.read cursor source), x = c ∨ r x c
  complete : ∀ cursor source x, good cursor → has source x → After r cursor x →
    x ∈ pager.items (pager.read cursor source) ∨
      ∃ c, pager.next (pager.read cursor source) = some c ∧ r c x

namespace Sound

variable (h : pager.Sound r has good)

include h

/-- A walk that goes on does so behind its first page. -/
theorem walk_cons (hgood : good cursor) (source : ι) (sources : List ι) :
    ∃ rest, pager.walk cursor (source :: sources) = (source, pager.read cursor source) :: rest ∧
      (rest = [] ∧ pager.next (pager.read cursor source) = none ∨
        ∃ c, pager.next (pager.read cursor source) = some c ∧ good (some c) ∧ After r cursor c ∧
          rest = pager.walk (some c) sources) := by
  refine ⟨_, rfl, ?_⟩
  cases hnext : pager.next (pager.read cursor source) with
  | none => exact .inl ⟨rfl, rfl⟩
  | some c =>
    obtain ⟨hc, hafter, -⟩ := h.advances cursor source c hgood hnext
    exact .inr ⟨c, rfl, hc, hafter, rfl⟩

/-- The pages of a walk were read behind good cursors. -/
theorem exists_read_of_mem_walk (sources : List ι) (hgood : good cursor) {visit : ι × P}
    (hvisit : visit ∈ pager.walk cursor sources) :
    ∃ cursor', good cursor' ∧ visit.1 ∈ sources ∧ visit.2 = pager.read cursor' visit.1 := by
  induction sources generalizing cursor with
  | nil => cases hvisit
  | cons source sources ih =>
    obtain ⟨rest, hwalk, hrest⟩ := h.walk_cons hgood source sources
    rw [hwalk] at hvisit
    rcases List.mem_cons.mp hvisit with rfl | hvisit
    · exact ⟨cursor, hgood, List.mem_cons_self, rfl⟩
    · rcases hrest with ⟨rfl, -⟩ | ⟨c, -, hc, -, rfl⟩
      · cases hvisit
      · obtain ⟨cursor', hcursor', hsource, hread⟩ := ih hc hvisit
        exact ⟨cursor', hcursor', List.mem_cons_of_mem _ hsource, hread⟩

/-- What is returned was there. -/
theorem has_of_mem_walk (sources : List ι) (hgood : good cursor) {visit : ι × P}
    (hvisit : visit ∈ pager.walk cursor sources) {x : α} (hx : x ∈ pager.items visit.2) :
    has visit.1 x := by
  obtain ⟨cursor', hcursor', -, hread⟩ := h.exists_read_of_mem_walk sources hgood hvisit
  rw [hread] at hx
  exact (h.item cursor' visit.1 hcursor' x hx).1

/-- The items of a walk are in order, and all behind the cursor. -/
theorem walk_ordered [IsTrans α r] (sources : List ι) (hgood : good cursor) :
    (pager.collected (pager.walk cursor sources)).Pairwise r ∧
      ∀ x ∈ pager.collected (pager.walk cursor sources), After r cursor x := by
  induction sources generalizing cursor with
  | nil => exact ⟨.nil, fun x hx => by cases hx⟩
  | cons source sources ih =>
    obtain ⟨rest, hwalk, hrest⟩ := h.walk_cons hgood source sources
    have hfirst := h.ordered cursor source hgood
    have hitems := fun x hx => (h.item cursor source hgood x hx).2
    rw [hwalk, collected, List.flatMap_cons]
    rcases hrest with ⟨rfl, -⟩ | ⟨c, hnext, hc, hafter, rfl⟩
    · rw [List.flatMap_nil, List.append_nil]
      exact ⟨hfirst, hitems⟩
    · obtain ⟨hordered, hbehind⟩ := ih hc
      obtain ⟨-, -, hle⟩ := h.advances cursor source c hgood hnext
      refine ⟨List.pairwise_append.mpr ⟨hfirst, hordered, fun x hx y hy => ?_⟩, fun x hx => ?_⟩
      · have hcy : r c y := hbehind y hy c rfl
        rcases hle x hx with rfl | hxc
        · exact hcy
        · exact IsTrans.trans x c y hxc hcy
      · rcases List.mem_append.mp hx with hx | hx
        · exact hitems x hx
        · exact hafter.trans (hbehind x hx c rfl)

/-- The cursors of a walk go on and on. -/
theorem cursors_ordered [IsTrans α r] (sources : List ι) (hgood : good cursor) :
    (pager.cursors (pager.walk cursor sources)).Pairwise r ∧
      ∀ c ∈ pager.cursors (pager.walk cursor sources), After r cursor c := by
  induction sources generalizing cursor with
  | nil => exact ⟨.nil, fun c hc => by cases hc⟩
  | cons source sources ih =>
    obtain ⟨rest, hwalk, hrest⟩ := h.walk_cons hgood source sources
    rw [hwalk]
    rcases hrest with ⟨rfl, hnext⟩ | ⟨c, hnext, hc, hafter, rfl⟩
    · rw [cursors_cons_none pager hnext]
      exact ⟨.nil, fun c hc => by cases hc⟩
    · obtain ⟨hordered, hbehind⟩ := ih hc
      rw [cursors_cons_some pager hnext]
      refine ⟨List.pairwise_cons.mpr ⟨fun c' hc' => hbehind c' hc' c rfl, hordered⟩,
        fun c' hc' => ?_⟩
      rcases List.mem_cons.mp hc' with rfl | hc'
      · exact hafter
      · exact hafter.trans (hbehind c' hc' c rfl)

/-- A walk that has come to its end has returned all that was there all the time. -/
theorem mem_walk (sources : List ι) (hgood : good cursor)
    (hfinished : pager.Finished (pager.walk cursor sources)) {x : α} (hx : After r cursor x)
    (hhas : ∀ visit ∈ pager.walk cursor sources, has visit.1 x) :
    x ∈ pager.collected (pager.walk cursor sources) := by
  induction sources generalizing cursor with
  | nil =>
    obtain ⟨visit, hvisit, -⟩ := hfinished
    cases hvisit
  | cons source sources ih =>
    obtain ⟨rest, hwalk, hrest⟩ := h.walk_cons hgood source sources
    rw [hwalk] at hhas hfinished ⊢
    rw [collected, List.flatMap_cons, List.mem_append]
    have hfound := h.complete cursor source x hgood (hhas _ List.mem_cons_self) hx
    refine hfound.imp_right fun ⟨c', hnext', hr⟩ => ?_
    rcases hrest with ⟨-, hnext⟩ | ⟨c, hnext, hc, -, rfl⟩
    · cases hnext.symm.trans hnext'
    · obtain rfl := Option.some.inj (hnext.symm.trans hnext')
      obtain ⟨visit, hvisit, hnone⟩ := hfinished
      have hlater : visit ∈ pager.walk (some c) sources := by
        rcases List.mem_cons.mp hvisit with rfl | hlater
        · cases hnext.symm.trans hnone
        · exact hlater
      refine ih hc ⟨visit, hlater, hnone⟩ (fun c' hc' => Option.some.inj hc' ▸ hr) ?_
      exact fun visit hvisit => hhas visit (List.mem_cons_of_mem _ hvisit)

/-- It has returned it once. -/
theorem count_walk [IsTrans α r] [Std.Irrefl r] [BEq α] [LawfulBEq α] (sources : List ι)
    (hgood : good cursor) (hfinished : pager.Finished (pager.walk cursor sources)) {x : α}
    (hx : After r cursor x) (hhas : ∀ visit ∈ pager.walk cursor sources, has visit.1 x) :
    (pager.collected (pager.walk cursor sources)).count x = 1 :=
  List.count_eq_one_of_mem (h.walk_ordered sources hgood).1.nodup
    (h.mem_walk sources hgood hfinished hx hhas)

/-- A walk that is not finished has a cursor for each of its sources. -/
theorem length_cursors (sources : List ι) (hgood : good cursor)
    (hgoes : ¬ pager.Finished (pager.walk cursor sources)) :
    (pager.cursors (pager.walk cursor sources)).length = sources.length := by
  induction sources generalizing cursor with
  | nil => rfl
  | cons source sources ih =>
    obtain ⟨rest, hwalk, hrest⟩ := h.walk_cons hgood source sources
    rw [hwalk] at hgoes ⊢
    rcases hrest with ⟨-, hnext⟩ | ⟨c, hnext, hc, -, rfl⟩
    · exact absurd ⟨_, List.mem_cons_self, hnext⟩ hgoes
    · rw [cursors_cons_some pager hnext, List.length_cons, List.length_cons]
      refine congrArg (· + 1) (ih hc fun ⟨visit, hvisit, hnone⟩ => hgoes ?_)
      exact ⟨visit, List.mem_cons_of_mem _ hvisit, hnone⟩

/-- A walk whose cursors are from a list ends before it has more pages than the list is long. -/
theorem finished_of_cursors [IsTrans α r] [Std.Irrefl r] {sources : List ι}
    (hgood : good cursor) {bound : List α}
    (hsubset : pager.cursors (pager.walk cursor sources) ⊆ bound)
    (hlength : bound.length < sources.length) : pager.Finished (pager.walk cursor sources) := by
  by_contra hgoes
  have hle := (List.subperm_of_subset (h.cursors_ordered sources hgood).1.nodup hsubset).length_le
  rw [h.length_cursors sources hgood hgoes] at hle
  omega

theorem finished_of_bounded [IsTrans α r] [Std.Irrefl r] {sources : List ι}
    (hgood : good cursor) (bound : List α)
    (hbound : ∀ cursor, ∀ source ∈ sources, ∀ c, good cursor →
      pager.next (pager.read cursor source) = some c → c ∈ bound)
    (hlength : bound.length < sources.length) : pager.Finished (pager.walk cursor sources) := by
  have hsubset : pager.cursors (pager.walk cursor sources) ⊆ bound := fun c hc => by
    obtain ⟨visit, hvisit, hnext⟩ := List.mem_filterMap.mp hc
    obtain ⟨cursor', hcursor', hsource, hread⟩ := h.exists_read_of_mem_walk sources hgood hvisit
    rw [hread] at hnext
    exact hbound cursor' visit.1 hsource c hcursor' hnext
  exact h.finished_of_cursors hgood hsubset hlength

/-- A second reader goes through the same pages and leaves out some of their items. -/
theorem filter {κ Q : Type*} {shown : Pager κ Q α} (f : κ → ι) (keep : κ → α → Bool)
    (hitems : ∀ cursor source, shown.items (shown.read cursor source) =
      (pager.items (pager.read cursor (f source))).filter (keep source))
    (hnext : ∀ cursor source, shown.next (shown.read cursor source) =
      pager.next (pager.read cursor (f source))) :
    shown.Sound r (fun source x => has (f source) x ∧ keep source x = true) good where
  ordered cursor source hcursor := by
    rw [hitems]
    exact (h.ordered cursor (f source) hcursor).sublist List.filter_sublist
  item cursor source hcursor x hx := by
    rw [hitems, List.mem_filter] at hx
    obtain ⟨hhas, hafter⟩ := h.item cursor (f source) hcursor x hx.1
    exact ⟨⟨hhas, hx.2⟩, hafter⟩
  advances cursor source c hcursor hc := by
    rw [hnext] at hc
    obtain ⟨hgood, hafter, hle⟩ := h.advances cursor (f source) c hcursor hc
    refine ⟨hgood, hafter, fun x hx => hle x ?_⟩
    rw [hitems] at hx
    exact List.mem_of_mem_filter hx
  complete cursor source x hcursor hx hafter := by
    rw [hitems, hnext, List.mem_filter]
    exact (h.complete cursor (f source) x hcursor hx.1 hafter).imp_left fun hmem => ⟨hmem, hx.2⟩

end Sound

/-! ### Pages that are read by a scan -/

/-- A scan looks at candidates one after the other and returns those that match, with the last one
it has looked at as the cursor, or with no cursor if it has looked at all. -/
def Scan (candidates : List α) (matches_ : α → Bool) (items : List α) (next : Option α) : Prop :=
  ∃ seen rest, candidates = seen ++ rest ∧ items = seen.filter matches_ ∧
    (next = none ∧ rest = [] ∨ ∃ c, seen.getLast? = some c ∧ next = some c)

theorem Scan.next_mem {candidates items : List α} {matches_ : α → Bool} {next : Option α}
    (h : Scan candidates matches_ items next) {c : α} (hc : next = some c) : c ∈ candidates := by
  obtain ⟨seen, rest, rfl, -, hnext⟩ := h
  rcases hnext with ⟨hnone, -⟩ | ⟨c', hlast, hnext⟩
  · cases hnone.symm.trans hc
  · obtain rfl := Option.some.inj (hnext.symm.trans hc)
    exact List.mem_append_left _ (List.mem_of_getLast? hlast)

/-- In an ordered list, all others come before the last. -/
theorem eq_or_of_getLast? {l : List α} (h : l.Pairwise r) {c x : α} (hc : l.getLast? = some c)
    (hx : x ∈ l) : x = c ∨ r x c := by
  obtain ⟨l, rfl⟩ := List.getLast?_eq_some_iff.mp hc
  rcases List.mem_append.mp hx with hx | hx
  · exact .inr ((List.pairwise_append.mp h).2.2 x hx c (List.mem_singleton_self c))
  · exact .inl (List.mem_singleton.mp hx)

/-- Pages that are read by scans through the candidates behind the cursor, in order. -/
theorem Sound.of_scan (candidates : Option α → ι → List α) (matches_ : ι → α → Bool)
    (hscan : ∀ cursor source, good cursor → Scan (candidates cursor source) (matches_ source)
      (pager.items (pager.read cursor source)) (pager.next (pager.read cursor source)))
    (hordered : ∀ cursor source, (candidates cursor source).Pairwise r)
    (hafter : ∀ cursor source, ∀ x ∈ candidates cursor source, After r cursor x)
    (hgood : ∀ cursor source, good cursor → ∀ x ∈ candidates cursor source, good (some x))
    (hhas : ∀ cursor source x, good cursor → After r cursor x →
      (has source x ↔ x ∈ candidates cursor source ∧ matches_ source x = true)) :
    pager.Sound r has good where
  ordered cursor source hcursor := by
    obtain ⟨seen, rest, hsplit, hitems, -⟩ := hscan cursor source hcursor
    have hseen := hordered cursor source
    rw [hsplit] at hseen
    rw [hitems]
    exact (List.pairwise_append.mp hseen).1.sublist List.filter_sublist
  item cursor source hcursor x hx := by
    obtain ⟨seen, rest, hsplit, hitems, -⟩ := hscan cursor source hcursor
    rw [hitems, List.mem_filter] at hx
    have hmem : x ∈ candidates cursor source := hsplit ▸ List.mem_append_left rest hx.1
    have hbehind := hafter cursor source x hmem
    exact ⟨(hhas cursor source x hcursor hbehind).mpr ⟨hmem, hx.2⟩, hbehind⟩
  advances cursor source c hcursor hc := by
    have hmem := (hscan cursor source hcursor).next_mem hc
    refine ⟨hgood cursor source hcursor c hmem, hafter cursor source c hmem, fun x hx => ?_⟩
    obtain ⟨seen, rest, hsplit, hitems, hnext⟩ := hscan cursor source hcursor
    have hseen := hordered cursor source
    rw [hsplit] at hseen
    rw [hitems, List.mem_filter] at hx
    rcases hnext with ⟨hnone, -⟩ | ⟨c', hlast, hnext⟩
    · cases hnone.symm.trans hc
    · obtain rfl := Option.some.inj (hnext.symm.trans hc)
      exact eq_or_of_getLast? (List.pairwise_append.mp hseen).1 hlast hx.1
  complete cursor source x hcursor hx hbehind := by
    obtain ⟨hmem, hmatches⟩ := (hhas cursor source x hcursor hbehind).mp hx
    obtain ⟨seen, rest, hsplit, hitems, hnext⟩ := hscan cursor source hcursor
    have hseen := hordered cursor source
    rw [hsplit] at hmem hseen
    rcases List.mem_append.mp hmem with hmem | hmem
    · exact .inl (hitems ▸ List.mem_filter.mpr ⟨hmem, hmatches⟩)
    · rcases hnext with ⟨-, rfl⟩ | ⟨c, hlast, hnext⟩
      · cases hmem
      · have hrest := (List.pairwise_append.mp hseen).2.2
        exact .inr ⟨c, hnext, hrest c (List.mem_of_getLast? hlast) x hmem⟩

end Pager
