import Sepp.Committer.Cycle
import Sepp.Library.Pages
import Sepp.Library.PrefixRange

/-!
# Paging through the keys of a queue

`peek_keys` reads a page of the keys of a queue behind a cursor. Ready keys start with their queue,
so the page is a range of keys; timer keys do not, so the page is a scan that keeps the keys of the
queue, and that stops when it has enough of them or has looked at enough entries. Either way the
cursor is the last key that was looked at. The indexes may change between the pages.

## Main definitions

* `Indexes.HasKey` — a key of the queue.
* `peeks` — `peek_keys` as a pager.

## Main results

* `peekTimers_scan`, `peekReady_scan` — a page is read by a scan.
* `sound_peeks`, `peek_walk`.
-/

open Std

namespace Sepp

/-- The order of the keys. -/
def KeyLt (key key' : Bytes) : Prop := compare key key' = .lt

instance : IsTrans Bytes KeyLt := ⟨fun _ _ _ => TransCmp.lt_trans⟩

instance : Irrefl KeyLt := ⟨fun key h => by
  rw [KeyLt, ReflOrd.compare_self] at h
  cases h⟩

/-! ### The loop over a timer index -/

section Timers

variable {queue : String} {limit examined : ℕ} {entries : List (Bytes × String)}
  {keys : List Bytes} {last : Option Bytes}

/-- The keys of the entries that belong to the queue. -/
def keysOf (queue : String) (entries : List (Bytes × String)) : List Bytes :=
  (entries.filter fun entry => entry.2 = queue).map Prod.fst

/-- The loop has looked at some more entries and stopped: at the end, or with the last of them as
its cursor. -/
def StopsWith (queue : String) (limit : ℕ) (entries : List (Bytes × String)) (examined : ℕ)
    (keys : List Bytes) (last : Option Bytes) (page : PeekPage) : Prop :=
  ∃ seen rest, entries = seen ++ rest ∧ page.keys = keys ++ keysOf queue seen ∧
    page.keys.length ≤ limit ∧
    (page.nextCursor = none ∧ rest = [] ∨
      page.nextCursor = (seen.getLast?.map Prod.fst).or last ∧
        (seen = [] → examined = peekExamineCap))

/-- It has looked at one entry before. -/
theorem StopsWith.cons {key : Bytes} {owner : String} {page : PeekPage}
    (h : StopsWith queue limit entries (examined + 1) (keys ++ keysOf queue [(key, owner)])
      (some key) page) :
    StopsWith queue limit ((key, owner) :: entries) examined keys last page := by
  obtain ⟨seen, rest, hsplit, hkeys, hle, hcursor⟩ := h
  refine ⟨(key, owner) :: seen, rest, by rw [hsplit, List.cons_append], ?_, hle, ?_⟩
  · rw [hkeys, List.append_assoc, keysOf, keysOf, ← List.map_append, ← List.filter_append,
      List.singleton_append, keysOf]
  · refine hcursor.imp_right fun ⟨hcursor, _⟩ => ⟨?_, fun hnil => by cases hnil⟩
    rw [hcursor, List.getLast?_cons]
    cases seen.getLast? <;> rfl

theorem stopsWith_peekTimers (queue : String) (entries : List (Bytes × String)) (examined : ℕ)
    (keys : List Bytes)
    (last : Option Bytes) (hlimit : keys.length < limit) :
    StopsWith queue limit entries examined keys last
      (peekTimers queue limit entries examined keys last) := by
  induction entries generalizing examined keys last with
  | nil => exact ⟨[], [], rfl, (List.append_nil keys).symm, hlimit.le, .inl ⟨rfl, rfl⟩⟩
  | cons entry entries ih =>
    obtain ⟨key, owner⟩ := entry
    rw [peekTimers]
    split_ifs with hcap howner hfull
    · exact ⟨[], _, rfl, (List.append_nil keys).symm, hlimit.le, .inr ⟨rfl, fun _ => hcap⟩⟩
    · exact ⟨[(key, owner)], entries, rfl, by simp [keysOf, howner], hfull.le,
        .inr ⟨rfl, fun hnil => by cases hnil⟩⟩
    · have hkeys : keysOf queue [(key, owner)] = [key] := by simp [keysOf, howner]
      have hshort : (keys ++ [key]).length < limit := by
        rw [List.length_append, List.length_singleton] at hfull ⊢
        omega
      refine .cons ?_
      rw [hkeys]
      exact ih (examined + 1) (keys ++ [key]) (some key) hshort
    · have hkeys : keysOf queue [(key, owner)] = [] := by simp [keysOf, howner]
      refine .cons ?_
      rw [hkeys, List.append_nil]
      exact ih (examined + 1) keys (some key) hlimit

/-- The keys of a timer index behind the cursor, in order. -/
def TimerIndex.keysAfter (index : TimerIndex) (cursor : Option Bytes) : List Bytes :=
  (entriesAfter cursor index.keys.toList).map Prod.fst

/-- A page of a timer index is read by a scan. -/
theorem peekTimers_scan (index : TimerIndex) (cursor : Option Bytes) (hlimit : 0 < limit) :
    Pager.Scan (index.keysAfter cursor) (fun key => index.keys[key]? = some queue)
      (peekTimers queue limit (entriesAfter cursor index.keys.toList) 0 [] none).keys
      (peekTimers queue limit (entriesAfter cursor index.keys.toList) 0 [] none).nextCursor := by
  obtain ⟨seen, rest, hsplit, hkeys, -, hcursor⟩ := stopsWith_peekTimers queue
    (entriesAfter cursor index.keys.toList) 0 [] none hlimit
  have hentry : ∀ entry ∈ seen, index.keys[entry.1]? = some entry.2 := by
    intro entry hentry
    have hmem : entry ∈ entriesAfter cursor index.keys.toList :=
      hsplit ▸ List.mem_append_left rest hentry
    rw [← ExtTreeMap.mem_toList_iff_getElem?_eq_some]
    cases cursor with
    | none => exact hmem
    | some c => exact List.mem_of_mem_filter hmem
  refine ⟨seen.map Prod.fst, rest.map Prod.fst, ?_, ?_, ?_⟩
  · rw [TimerIndex.keysAfter, hsplit, List.map_append]
  · rw [hkeys, List.nil_append, keysOf, List.filter_map]
    refine congrArg _ (List.filter_congr fun entry hmem => ?_)
    simp [hentry entry hmem]
  · rcases hcursor with ⟨hnone, rfl⟩ | ⟨hcursor, hseen⟩
    · exact .inl ⟨hnone, rfl⟩
    · -- the loop looks at some entry before it gives up
      cases hlast : seen.getLast? with
      | none => cases hseen (List.getLast?_eq_none_iff.mp hlast)
      | some entry =>
        refine .inr ⟨entry.1, ?_, ?_⟩
        · rw [List.getLast?_map, hlast, Option.map_some]
        · rw [hcursor, hlast]
          rfl

end Timers

/-! ### The range of a ready index -/

section Ready

variable {queue : String} {limit : ℕ} {cursor : Option Bytes}

/-- A cursor into the ready keys of the queue. -/
def ReadyCursor (queue : String) (cursor : Option Bytes) : Prop :=
  ∀ c, cursor = some c → queuePrefix queue <+: c

/-- The ready keys of the queue behind the cursor, in order. -/
def ReadyIndex.keysAfter (index : ReadyIndex) (queue : String) (cursor : Option Bytes) :
    List Bytes :=
  index.keys.keys.filter fun key =>
    (queuePrefix queue).isPrefixOf key && cursor.all fun c => (compare c key).isLT

/-- A list whose matches all come first. -/
theorem takeWhile_eq_filter {α : Type} {p : α → Bool} {l : List α}
    (h : l.Pairwise fun x y => p y = true → p x = true) : l.takeWhile p = l.filter p := by
  induction h with
  | nil => rfl
  | @cons x l hx _ ih =>
    cases hp : p x with
    | true => rw [List.takeWhile_cons_of_pos hp, List.filter_cons_of_pos hp, ih]
    | false =>
      have hnone : l.filter p = [] := List.filter_eq_nil_iff.mpr fun y hy hpy => by
        cases hp.symm.trans (hx y hy hpy)
      rw [List.takeWhile_cons_of_neg (by simp [hp]), List.filter_cons_of_neg (by simp [hp]), hnone]

/-- The range that starts at the cursor, or at the prefix, starts with the keys of the queue. -/
theorem takeWhile_range_eq (index : ReadyIndex) (hcursor : ReadyCursor queue cursor) :
    ((index.keys.toList.map Prod.fst).filter fun key =>
      match cursor with
      | some c => (compare c key).isLT
      | none => (compare (queuePrefix queue) key).isLE).takeWhile
        (fun key => (queuePrefix queue).isPrefixOf key) = index.keysAfter queue cursor := by
  rw [ExtTreeMap.map_fst_toList_eq_keys]
  have hrange : ∀ key, (match cursor with
      | some c => (compare c key).isLT
      | none => (compare (queuePrefix queue) key).isLE) = true →
      (compare (queuePrefix queue) key).isLE = true := by
    intro key hkey
    cases cursor with
    | none => exact hkey
    | some c =>
      have hc := List.isLE_compare_of_isPrefix (hcursor c rfl)
      exact TransCmp.isLE_trans hc (Ordering.isLE_of_eq_lt (Ordering.isLT_iff_eq_lt.mp hkey))
  rw [takeWhile_eq_filter, List.filter_filter, ReadyIndex.keysAfter]
  · refine List.filter_congr fun key _ => ?_
    cases cursor with
    | some c => rfl
    | none =>
      cases hpre : (queuePrefix queue).isPrefixOf key with
      | false => rfl
      | true =>
        simpa using List.isLE_compare_of_isPrefix (List.isPrefixOf_iff_prefix.mp hpre)
  · -- between the prefix and a key that starts with it, all keys do
    refine (ExtTreeMap.ordered_keys.filter _).imp_of_mem fun {key key'} hkey _ hlt hpre => ?_
    obtain ⟨t, rfl⟩ := List.isPrefixOf_iff_prefix.mp hpre
    exact List.isPrefixOf_iff_prefix.mpr (List.isPrefix_of_isLE_compare
      (hrange key (List.mem_filter.mp hkey).2) (Ordering.isLE_of_eq_lt hlt))

theorem peekReady_eq (index : ReadyIndex) (hcursor : ReadyCursor queue cursor) (limit : ℕ) :
    peekReady index queue cursor limit =
      { keys := (index.keysAfter queue cursor).take limit
        nextCursor :=
          if ((index.keysAfter queue cursor).take limit).length = limit ∧
            (index.keysAfter queue cursor).drop limit ≠ []
          then ((index.keysAfter queue cursor).take limit).getLast? else none
        truncated := false } := by
  rw [← takeWhile_range_eq index hcursor]
  cases cursor <;> rfl

/-- A page of the ready index is read by a scan that keeps all keys. -/
theorem peekReady_scan (index : ReadyIndex) (hcursor : ReadyCursor queue cursor)
    (hlimit : 0 < limit) :
    Pager.Scan (index.keysAfter queue cursor) (fun _ => true)
      (peekReady index queue cursor limit).keys
      (peekReady index queue cursor limit).nextCursor := by
  rw [peekReady_eq index hcursor]
  refine ⟨_, _, (List.take_append_drop limit _).symm,
    (List.filter_eq_self.mpr fun _ _ => rfl).symm, ?_⟩
  split_ifs with hmore
  · have hne : (index.keysAfter queue cursor).take limit ≠ [] := by
      intro hnil
      rw [hnil, List.length_nil] at hmore
      omega
    exact .inr ⟨_, List.getLast?_eq_some_getLast hne, List.getLast?_eq_some_getLast hne⟩
  · refine .inl ⟨rfl, ?_⟩
    by_contra hrest
    have hlong : limit < (index.keysAfter queue cursor).length := by
      by_contra hshort
      exact hrest (List.drop_of_length_le (by omega))
    exact hmore ⟨by rw [List.length_take]; omega, hrest⟩

end Ready

/-! ### The walk -/

section Walk

variable {state : PeekState} {queue : String} {idx : Indexes} {cursor : Option Bytes} {key : Bytes}

/-- The index has a key of the queue. Ready keys start with their queue; the other indexes have the
owner of each key. -/
def Indexes.HasKey (idx : Indexes) (state : PeekState) (queue : String) (key : Bytes) : Prop :=
  match state with
  | .ready => key ∈ idx.ready.keys ∧ queuePrefix queue <+: key
  | .scheduled => idx.scheduled.keys[key]? = some queue
  | .inflight => idx.leases.keys[key]? = some queue
  | .deadLetter => idx.deadLetter.keys[key]? = some queue

/-- What is read as a length-prefixed field was written as one. -/
theorem eq_append_of_prefixed {bytes name rest : Bytes}
    (h : KeyReader.prefixed bytes = some (name, rest)) :
    bytes = KeyWriter.prefixed name ++ rest := by
  obtain ⟨⟨len, body⟩, hlen, hname⟩ := Option.bind_eq_some_iff.mp h
  simp only [KeyReader.take] at hlen hname
  split_ifs at hlen with htwo
  obtain ⟨rfl, rfl⟩ := Prod.mk.inj (Option.some.inj hlen)
  split_ifs at hname with hlong
  obtain ⟨rfl, rfl⟩ := Prod.mk.inj (Option.some.inj hname)
  have htake : (bytes.take 2).length = 2 := by
    rw [List.length_take]
    omega
  have hcount : ((bytes.drop 2).take (BigEndian.ofBytes (bytes.take 2))).length =
      BigEndian.ofBytes (bytes.take 2) := by
    rw [List.length_take]
    omega
  have hback := BigEndian.toBytes_ofBytes (bytes.take 2)
  rw [htake] at hback
  rw [KeyWriter.prefixed, hcount, hback, List.append_assoc, List.take_append_drop,
    List.take_append_drop]

/-- A key starts with a queue exactly if this is the queue that is read from it. -/
theorem isPrefix_iff_readQueue (hq : FitsPrefix queue) :
    queuePrefix queue <+: key ↔ readQueue key = some queue := by
  constructor
  · rintro ⟨rest, rfl⟩
    exact readQueue_append rest hq
  · intro hread
    obtain ⟨⟨queue', rest⟩, hprefixed, heq⟩ := Option.map_eq_some_iff.mp hread
    obtain rfl : queue' = queue := heq
    obtain ⟨⟨name, rest'⟩, hname, hlift⟩ := Option.bind_eq_some_iff.mp hprefixed
    simp only [KeyReader.lift_apply] at hlift
    obtain ⟨queue'', hutf8, heq⟩ := Option.map_eq_some_iff.mp hlift
    obtain rfl := (Prod.mk.inj heq).1
    obtain rfl : asBytes queue'' = name := asBytes_of_fromUtf8 hutf8
    exact ⟨rest', (eq_append_of_prefixed hname).symm⟩

/-- `peek_keys`, of an index with a limit. -/
def peeks (state : PeekState) (queue : String) : Pager (Indexes × ℕ) PeekPage Bytes where
  read cursor visit := peekKeys visit.1 state queue cursor visit.2
  items := PeekPage.keys
  next := PeekPage.nextCursor

/-- The pages of a walk from the start. -/
def peekPages (state : PeekState) (queue : String) (visits : List (Indexes × ℕ)) :
    List ((Indexes × ℕ) × PeekPage) :=
  (peeks state queue).walk none visits

/-- The cursors that `peek_keys` returns. -/
def PeekCursor (state : PeekState) (queue : String) (cursor : Option Bytes) : Prop :=
  state = .ready → ReadyCursor queue cursor

theorem peekCursor_none (state : PeekState) (queue : String) : PeekCursor state queue none :=
  fun _ _ h => nomatch h

theorem TimerIndex.mem_keysAfter_iff {index : TimerIndex} :
    key ∈ index.keysAfter cursor ↔ key ∈ index.keys ∧ After KeyLt cursor key := by
  have hmem : key ∈ index.keys ↔ ∃ entry ∈ index.keys.toList, entry.1 = key := by
    rw [← ExtTreeMap.mem_keys, ← ExtTreeMap.map_fst_toList_eq_keys, List.mem_map]
  rw [keysAfter, List.mem_map, hmem]
  cases cursor with
  | none => simp [entriesAfter, After]
  | some c =>
    constructor
    · rintro ⟨entry, hentry, rfl⟩
      obtain ⟨hentry, hlt⟩ := List.mem_filter.mp hentry
      refine ⟨⟨entry, hentry, rfl⟩, fun c' hc' => ?_⟩
      rw [← Option.some.inj hc']
      exact Ordering.isLT_iff_eq_lt.mp hlt
    · rintro ⟨⟨entry, hentry, rfl⟩, hafter⟩
      exact ⟨entry, List.mem_filter.mpr ⟨hentry, Ordering.isLT_iff_eq_lt.mpr (hafter c rfl)⟩, rfl⟩

theorem TimerIndex.ordered_keysAfter (index : TimerIndex) (cursor : Option Bytes) :
    (index.keysAfter cursor).Pairwise KeyLt := by
  rw [keysAfter, List.pairwise_map]
  cases cursor with
  | none => exact ExtTreeMap.ordered_keys_toList
  | some c => exact ExtTreeMap.ordered_keys_toList.filter _

theorem ReadyIndex.mem_keysAfter_iff {index : ReadyIndex} :
    key ∈ index.keysAfter queue cursor ↔
      (key ∈ index.keys ∧ queuePrefix queue <+: key) ∧ After KeyLt cursor key := by
  rw [keysAfter, List.mem_filter, ExtTreeMap.mem_keys, Bool.and_eq_true,
    List.isPrefixOf_iff_prefix, and_assoc]
  refine and_congr_right fun _ => and_congr_right fun _ => ?_
  cases cursor with
  | none => simp [After]
  | some c => simp [After, KeyLt]

theorem ReadyIndex.ordered_keysAfter (index : ReadyIndex) (queue : String)
    (cursor : Option Bytes) : (index.keysAfter queue cursor).Pairwise KeyLt :=
  ExtTreeMap.ordered_keys.filter _

/-- The limit of a page. -/
def pageLimit (limit : ℕ) : ℕ := max 1 (min limit peekLimitMax)

theorem pageLimit_pos (limit : ℕ) : 0 < pageLimit limit :=
  Nat.lt_of_lt_of_le Nat.zero_lt_one (Nat.le_max_left ..)

theorem pageLimit_le (limit : ℕ) : pageLimit limit ≤ peekLimitMax :=
  Nat.max_le.mpr ⟨by decide, Nat.min_le_right ..⟩

/-- The pages of a timer index. -/
theorem sound_timers {pick : Indexes → TimerIndex} (hstate : state ≠ .ready)
    (hread : ∀ idx cursor limit, peekKeys idx state queue cursor limit =
      peekTimers queue (pageLimit limit) (entriesAfter cursor (pick idx).keys.toList) 0 [] none)
    (hhas : ∀ idx key, idx.HasKey state queue key ↔ (pick idx).keys[key]? = some queue) :
    (peeks state queue).Sound KeyLt (fun visit => visit.1.HasKey state queue)
      (PeekCursor state queue) := by
  refine Pager.Sound.of_scan (fun cursor visit => (pick visit.1).keysAfter cursor)
    (fun visit key => (pick visit.1).keys[key]? = some queue)
    (fun cursor visit _ => ?_) (fun cursor visit => (pick visit.1).ordered_keysAfter cursor)
    (fun cursor visit key hkey => (TimerIndex.mem_keysAfter_iff.mp hkey).2)
    (fun cursor visit _ key _ hready => absurd hready hstate) fun cursor visit key _ hafter => ?_
  · simp only [peeks, hread]
    exact peekTimers_scan (pick visit.1) cursor (pageLimit_pos visit.2)
  · rw [hhas, TimerIndex.mem_keysAfter_iff, decide_eq_true_iff]
    refine ⟨fun hkey => ⟨⟨?_, hafter⟩, hkey⟩, And.right⟩
    rw [ExtTreeMap.mem_iff_isSome_getElem?, hkey]
    rfl

theorem sound_peeks (state : PeekState) (queue : String) :
    (peeks state queue).Sound KeyLt (fun visit => visit.1.HasKey state queue)
      (PeekCursor state queue) := by
  cases state with
  | ready =>
    refine Pager.Sound.of_scan (fun cursor visit => visit.1.ready.keysAfter queue cursor)
      (fun _ _ => true)
      (fun cursor visit hcursor => peekReady_scan _ (hcursor rfl) (pageLimit_pos visit.2))
      (fun cursor visit => visit.1.ready.ordered_keysAfter queue cursor)
      (fun cursor visit key hkey => (ReadyIndex.mem_keysAfter_iff.mp hkey).2)
      (fun cursor visit _ key hkey _ c hc => ?_) fun cursor visit key _ hafter => ?_
    · rw [← Option.some.inj hc]
      exact (ReadyIndex.mem_keysAfter_iff.mp hkey).1.2
    · rw [ReadyIndex.mem_keysAfter_iff]
      exact ⟨fun hkey => ⟨⟨hkey, hafter⟩, rfl⟩, fun hkey => hkey.1.1⟩
  | scheduled => exact sound_timers (by decide) (fun _ _ _ => rfl) fun _ _ => Iff.rfl
  | inflight => exact sound_timers (by decide) (fun _ _ _ => rfl) fun _ _ => Iff.rfl
  | deadLetter => exact sound_timers (by decide) (fun _ _ _ => rfl) fun _ _ => Iff.rfl

theorem length_peekKeys_le (idx : Indexes) (state : PeekState) (queue : String)
    (cursor : Option Bytes) (limit : ℕ) :
    (peekKeys idx state queue cursor limit).keys.length ≤ 100 := by
  have htimers : ∀ index : TimerIndex, (peekTimers queue (pageLimit limit)
      (entriesAfter cursor index.keys.toList) 0 [] none).keys.length ≤ 100 := by
    intro index
    obtain ⟨-, -, -, -, hle, -⟩ := stopsWith_peekTimers queue
      (entriesAfter cursor index.keys.toList) 0 [] none (pageLimit_pos limit)
    exact hle.trans (pageLimit_le limit)
  cases state with
  | ready => exact (List.length_take_le ..).trans (pageLimit_le limit)
  | scheduled => exact htimers idx.scheduled
  | inflight => exact htimers idx.leases
  | deadLetter => exact htimers idx.deadLetter

/-- All keys of an index. -/
def Indexes.allKeys (idx : Indexes) : PeekState → List Bytes
  | .ready => idx.ready.keys.keys
  | .scheduled => idx.scheduled.keys.keys
  | .inflight => idx.leases.keys.keys
  | .deadLetter => idx.deadLetter.keys.keys

theorem mem_allKeys_of_nextCursor (hcursor : PeekCursor state queue cursor) {limit : ℕ} {c : Bytes}
    (hc : (peekKeys idx state queue cursor limit).nextCursor = some c) : c ∈ idx.allKeys state := by
  have htimers : ∀ index : TimerIndex, (peekTimers queue (pageLimit limit)
      (entriesAfter cursor index.keys.toList) 0 [] none).nextCursor = some c →
        c ∈ index.keys.keys := by
    intro index hnext
    have hmem := (peekTimers_scan index cursor (pageLimit_pos limit)).next_mem hnext
    exact ExtTreeMap.mem_keys.mpr (TimerIndex.mem_keysAfter_iff.mp hmem).1
  cases state with
  | ready =>
    have hmem := (peekReady_scan idx.ready (hcursor rfl) (pageLimit_pos limit)).next_mem hc
    exact List.mem_of_mem_filter hmem
  | scheduled => exact htimers idx.scheduled hc
  | inflight => exact htimers idx.leases hc
  | deadLetter => exact htimers idx.deadLetter hc

/-- A walk through the pages returns keys of the queue in order, each once, and all that are there
all the time. Its cursors go on and on, so it ends if the indexes stay as they are. -/
theorem peek_walk (state : PeekState) (queue : String) :
    (FitsPrefix queue → ∀ (idx : Indexes) (key : Bytes), idx.HasKey .ready queue key ↔
      key ∈ idx.ready.keys ∧ readQueue key = some queue) ∧
    (∀ visits : List (Indexes × ℕ),
      ((peeks state queue).collected (peekPages state queue visits)).Pairwise KeyLt ∧
      ((peeks state queue).cursors (peekPages state queue visits)).Pairwise KeyLt ∧
      (∀ page ∈ peekPages state queue visits, page.2.keys.length ≤ 100 ∧
        ∀ key ∈ page.2.keys, page.1.1.HasKey state queue key) ∧
      ((peeks state queue).Finished (peekPages state queue visits) → ∀ key,
        (∀ page ∈ peekPages state queue visits, page.1.1.HasKey state queue key) →
          ((peeks state queue).collected (peekPages state queue visits)).count key = 1)) ∧
    ∀ idx : Indexes, ∃ n, ∀ limits : List ℕ, n ≤ limits.length →
      (peeks state queue).Finished (peekPages state queue (limits.map fun limit => (idx, limit))) := by
  have hsound := sound_peeks state queue
  have hgood := peekCursor_none state queue
  refine ⟨fun hq idx key => and_congr_right fun _ => isPrefix_iff_readQueue hq, fun visits => ?_,
    fun idx => ⟨(idx.allKeys state).length + 1, fun limits hlimits => ?_⟩⟩
  · refine ⟨(hsound.walk_ordered visits hgood).1, (hsound.cursors_ordered visits hgood).1,
      fun page hpage => ⟨?_, fun key hkey => ?_⟩, fun hfinished key hkey => ?_⟩
    · obtain ⟨cursor, -, -, hread⟩ := hsound.exists_read_of_mem_walk visits hgood hpage
      rw [hread]
      exact length_peekKeys_le ..
    · exact hsound.has_of_mem_walk visits hgood hpage hkey
    · exact hsound.count_walk visits hgood hfinished (after_none KeyLt key) hkey
  · refine hsound.finished_of_bounded hgood (idx.allKeys state) ?_ ?_
    · rintro cursor _ hvisit c hcursor hc
      obtain ⟨limit, -, rfl⟩ := List.mem_map.mp hvisit
      exact mem_allKeys_of_nextCursor hcursor hc
    · rw [List.length_map]
      omega

end Walk

/-- Three dead letters of two queues. -/
def threeDeadLetters : Indexes where
  deadLetter := ((TimerIndex.insert {} [1] "emails").insert [2] "sms").insert [3] "emails"

/-- The first of them goes and another one comes. -/
def laterDeadLetters : Indexes where
  deadLetter := ((TimerIndex.insert {} [2] "sms").insert [3] "emails").insert [4] "emails"

/-- A walk page by page, in the course of which a key goes and another one comes, returns the key
that stays, once. -/
theorem peek_walk_threeDeadLetters :
    ((peekPages .deadLetter "emails" [(threeDeadLetters, 1), (laterDeadLetters, 2),
      (laterDeadLetters, 2)]).map fun page => page.2.keys) = [[[1]], [[3], [4]], []] ∧
    ((peeks .deadLetter "emails").collected (peekPages .deadLetter "emails"
      [(threeDeadLetters, 1), (laterDeadLetters, 2), (laterDeadLetters, 2)])).count [3] = 1 := by
  have hpages : (peekPages .deadLetter "emails" [(threeDeadLetters, 1), (laterDeadLetters, 2),
      (laterDeadLetters, 2)]).map Prod.snd =
        [⟨[[1]], some [1], false⟩, ⟨[[3], [4]], some [4], false⟩, ⟨[], none, false⟩] := by
    decide +kernel
  have hsources : (peekPages .deadLetter "emails" [(threeDeadLetters, 1), (laterDeadLetters, 2),
      (laterDeadLetters, 2)]).map Prod.fst =
        [(threeDeadLetters, 1), (laterDeadLetters, 2), (laterDeadLetters, 2)] := rfl
  refine ⟨?_, (((peek_walk .deadLetter "emails").2.1 _).2.2.2 ?_ [3]) fun page hpage => ?_⟩
  · have hkeys := congrArg (List.map PeekPage.keys) hpages
    rw [List.map_map] at hkeys
    exact hkeys
  · have hlast : (⟨[], none, false⟩ : PeekPage) ∈ (peekPages .deadLetter "emails"
        [(threeDeadLetters, 1), (laterDeadLetters, 2), (laterDeadLetters, 2)]).map Prod.snd := by
      simp [hpages]
    obtain ⟨page, hpage, heq⟩ := List.mem_map.mp hlast
    exact ⟨page, hpage, congrArg PeekPage.nextCursor heq⟩
  · have hthree : threeDeadLetters.HasKey .deadLetter "emails" [3] := by
      change threeDeadLetters.deadLetter.keys[_]? = _
      decide +kernel
    have hlater : laterDeadLetters.HasKey .deadLetter "emails" [3] := by
      change laterDeadLetters.deadLetter.keys[_]? = _
      decide +kernel
    have hsource := List.mem_map_of_mem (f := Prod.fst) hpage
    rw [hsources] at hsource
    simp only [List.mem_cons, List.not_mem_nil, or_false] at hsource
    rcases hsource with heq | heq | heq <;> rw [heq] <;> assumption

end Sepp
