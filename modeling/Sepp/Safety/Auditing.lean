import Sepp.Admin.Audit
import Sepp.Library.Window
import Sepp.Run.Outcomes
import Sepp.Run.Rounds
import Sepp.Wire.Codec

/-!
# The audit log

An append takes the number after the last one, from a row that is written in the same transaction;
what is not committed takes no number. So the rows are numbered from one, in the order of the
appends, and never change. `list_audit` walks backwards through them, while more are appended.

## Main definitions

* `appendsOf` — the entries that were appended, with the numbers that were returned.
* `audits` — `list_audit` as a pager.

## Main results

* `Run.toList_audit`, `Run.seqs_appendsOf` — the rows of the log.
* `sound_audits`, `audit_log`.
-/

open Std

namespace Sepp

/-! ### The entries -/

section Entries

variable [Prost] {a a' : Image} {calls : List Call} {server : Server}

omit [Prost] in
/-- The entry that a call has appended, under the number that it returned. -/
def Call.appended : Call → List AuditEntry
  | answered (.auditAppend record _) (.ok (.auditAppend seq tsMs)) => [{ seq, tsMs, record }]
  | _ => []

omit [Prost] in
/-- The entries that calls have appended, in order. -/
def appendsOf (calls : List Call) : List AuditEntry := calls.flatMap Call.appended

omit [Prost] in
/-- The entries of a log, numbered from one. -/
def numbered (log : List (Int64 × AuditRecord)) : List AuditEntry :=
  (log.zipIdx 1).map fun (entry, i) => { seq := UInt64.ofNat i, tsMs := entry.1, record := entry.2 }

omit [Prost] in
theorem numbered_concat (log : List (Int64 × AuditRecord)) (entry : Int64 × AuditRecord) :
    numbered (log ++ [entry]) = numbered log ++
      [{ seq := UInt64.ofNat (log.length + 1), tsMs := entry.1, record := entry.2 }] := by
  rw [numbered, List.zipIdx_append, List.map_append, numbered, Nat.add_comm]
  rfl

omit [Prost] in
theorem getElem?_numbered (log : List (Int64 × AuditRecord)) (i : ℕ) :
    (numbered log)[i]? = log[i]?.map fun entry =>
      { seq := UInt64.ofNat (i + 1), tsMs := entry.1, record := entry.2 } := by
  rw [numbered, List.getElem?_map, List.getElem?_zipIdx, Option.map_map, Nat.add_comm]
  rfl

omit [Prost] in
theorem seqs_numbered (log : List (Int64 × AuditRecord)) :
    (numbered log).map AuditEntry.seq = (List.range' 1 log.length).map UInt64.ofNat := by
  rw [numbered, List.map_map, ← List.zipIdx_map_snd, List.map_map]
  rfl

omit [Prost] in
/-- The entry that an event appends. -/
def Event.entry? : Event → Option (Int64 × AuditRecord)
  | append entry => some entry
  | _ => none

/-- The log is only ever appended to. -/
theorem Step.audit_eq {e : Event} (h : Step a e a') : a'.audit = a.audit ++ e.entry?.toList := by
  cases h with
  | append entry => rfl
  | insert hq =>
    unfold Image.rememberJob
    split <;> exact (List.append_nil _).symm
  | _ => exact (List.append_nil _).symm

theorem audit_of_trace {evs : List Event} (h : Trace Step a evs a') :
    a'.audit = a.audit ++ evs.filterMap Event.entry? := by
  induction h with
  | nil => exact (List.append_nil _).symm
  | cons hstep _ ih =>
    rw [ih, hstep.audit_eq, List.append_assoc, List.filterMap_cons]
    congr 1
    cases Event.entry? _ <;> rfl

omit [Prost] in
/-- Only an append appends. -/
theorem Op.Makes.of_append {op : Op} {entry : Int64 × AuditRecord}
    (h : op.Makes (.append entry)) : op = .auditAppend entry.2 entry.1 := by
  cases op with
  | auditAppend record now =>
    obtain rfl := Event.append.inj h
    rfl
  | enqueue | enqueueAtomic =>
    obtain ⟨job, -, hjob⟩ := h
    exact hjob.elim
  | reserve | ack | deadLetterJobs | requeueDeadLetters | drainDeadLetters | deleteDeadLetters =>
    simp [Op.Makes] at h
  | nack => rcases h with ⟨_, h⟩ | ⟨_, h⟩ <;> cases h
  | purgeQueueChunk => rcases h with ⟨_, h⟩ | ⟨_, _, _, h⟩ | ⟨_, _, h⟩ <;> cases h
  | extend | closeQueue | openQueue | sweep => cases h

/-- A call appends one entry, with the next number, or none. -/
theorem TurnStep.appended {t : Turn} {s s' : Server × Image} (h : TurnStep s t s')
    (hshows : s.1.Shows s.2) : numbered s'.2.audit = numbered s.2.audit ++ t.call.appended := by
  have haudit := audit_of_trace h.events
  have hexplained := h.explained
  have hcall := h.call
  unfold Call.appended
  split
  · rename_i record now seq tsMs heq
    rw [heq] at hexplained hcall
    obtain ⟨hevs, rfl⟩ := hexplained
    have hroom : s.2.audit.length + 1 < 2 ^ 64 := by
      by_contra hfull
      have hlength := hshows.metadata.length_lt
      obtain ⟨-, e, herr, -⟩ := hshows.callStep_of_rejects
        (applyAuditAppend_rejects record tsMs (by omega)).bind hcall
      cases herr
    have hreal : Realizes (applyOp (.auditAppend record tsMs)) s.2 _ :=
      Realizes.wrap (OpOutcome.auditAppend · tsMs) (applyAuditAppend_realizes record tsMs hroom)
    obtain ⟨-, -, -, -, seq', hr, rfl, -⟩ := hshows.callStep_of_realizes hreal hcall
    obtain rfl := (OpOutcome.auditAppend.inj hr).1
    rw [haudit, hevs]
    exact numbered_concat s.2.audit (tsMs, record)
  · rename_i hother
    have hnone : t.events.filterMap Event.entry? = [] := by
      refine List.filterMap_eq_nil_iff.mpr fun e he => ?_
      cases hentry : e.entry? with
      | none => rfl
      | some entry =>
        obtain rfl : e = .append entry := by
          cases e <;> first | exact congrArg _ (Option.some.inj hentry) | cases hentry
        obtain ⟨op, r, heq, hmakes⟩ := hexplained.exists_op he
        rw [heq, hmakes.of_append] at hexplained
        cases r with
        | auditAppend seq tsMs => exact (hother _ _ _ _ (by rw [heq, hmakes.of_append])).elim
        | _ => exact hexplained.elim
    rw [haudit, hnone, List.append_nil, List.append_nil]

/-- Only an append is answered with a number. -/
theorem Run.exists_record (h : Run calls server) {op : Op} {seq : UInt64} {tsMs : Int64}
    (hcall : .answered op (.ok (.auditAppend seq tsMs)) ∈ calls) :
    ∃ record, op = .auditAppend record tsMs := by
  obtain ⟨turns, a, rfl, hturns, -, -⟩ := h.exists_turns
  obtain ⟨t, ht, heq⟩ := List.mem_map.mp hcall
  obtain ⟨s, s', hturn⟩ := hturns.exists_step ht
  have hexplained := hturn.explained
  rw [heq] at hexplained
  cases op with
  | auditAppend record now =>
    obtain ⟨-, rfl⟩ := hexplained
    exact ⟨record, rfl⟩
  | _ => exact hexplained.elim

omit [Prost] in
theorem Op.exists_of_stamp {op : Op} {now tsMs : Int64} {record : AuditRecord}
    (h : op.stamp now = .auditAppend record tsMs) : ∃ now', op = .auditAppend record now' := by
  cases op with
  | auditAppend record' now' => exact ⟨now', by rw [(Op.auditAppend.inj h).1]⟩
  | _ => cases h

/-- A run has appended what its log has. -/
theorem Run.exists_log (h : Run calls server) :
    ∃ a, server.Shows a ∧ appendsOf calls = numbered a.audit := by
  obtain ⟨turns, a, rfl, hturns, hshows, -⟩ := h.exists_turns
  have hend := hturns.history
    (P := fun turns s => s.1.Shows s.2 ∧ numbered s.2.audit = appendsOf (turns.map Turn.call))
    ⟨Server.shows_empty, rfl⟩ (fun turns t s s' _ ih hturn => ⟨hturn.shows, ?_⟩)
  · exact ⟨a, hshows, hend.2.symm⟩
  · rw [hturn.appended ih.1, ih.2, appendsOf, appendsOf, List.map_append, List.flatMap_append,
      List.map_singleton, List.flatMap_singleton]

end Entries

/-! ### The rows -/

section Rows

variable [Prost] {a : Image} {rows : Rows} {idx : Indexes} {calls calls' : List Call}
  {server server' : Server}

omit [Prost] in
theorem compare_seqBytes (s s' : UInt64) :
    compare (seqBytes s) (seqBytes s') = compare s.toNat s'.toNat := by
  have hfits : ∀ s : UInt64, s.toNat < 256 ^ 8 := fun s => by simpa using s.toNat_lt
  have happend := BigEndian.compare_toBytes_append (hfits s) (hfits s') [] []
  rw [List.append_nil, List.append_nil] at happend
  rw [seqBytes, seqBytes, happend]
  exact Ordering.then_eq

omit [Prost] in
/-- The numbers of a log go up. -/
theorem ordered_numbered {log : List (Int64 × AuditRecord)} (hlength : log.length < 2 ^ 64) :
    (numbered log).Pairwise fun entry entry' => entry.seq.toNat < entry'.seq.toNat := by
  have hseqs : ((numbered log).map AuditEntry.seq).Pairwise fun s s' => s.toNat < s'.toNat := by
    rw [seqs_numbered, List.pairwise_map]
    have hfits : ∀ n ∈ List.range' 1 log.length, (UInt64.ofNat n).toNat = n := fun n hn => by
      rw [List.mem_range'_1] at hn
      exact UInt64.toNat_ofNat_of_lt' (show n < 2 ^ 64 by omega)
    refine (List.pairwise_lt_range' _).imp_of_mem fun {m n} hm hn hlt => ?_
    rwa [hfits m hm, hfits n hn]
  rw [List.pairwise_map] at hseqs
  exact hseqs

/-- The rows of the log are its entries, in order. -/
theorem Represents.toList_audit (h : Represents a rows idx) :
    rows.audit.toList = (numbered a.audit).map AuditEntry.row := by
  refine ExtTreeMap.toList_eq_of_ordered ?_ fun key value => ?_
  · rw [List.pairwise_map]
    refine (ordered_numbered h.metadata.length_lt).imp fun {entry entry'} hlt => ?_
    exact (compare_seqBytes _ _).trans (Nat.compare_eq_lt.mpr hlt)
  · have hrow : ∀ i, auditRow a.audit i = (numbered a.audit)[i]?.map AuditEntry.row := by
      intro i
      rw [getElem?_numbered, auditRow, Option.map_map]
      rfl
    rw [List.mem_map]
    constructor
    · rintro ⟨entry, hentry, hkey⟩
      obtain ⟨i, hi⟩ := List.mem_iff_getElem?.mp hentry
      refine h.metadata.audit.get_of (i := i) ?_
      rw [hrow, hi, Option.map_some, hkey]
    · intro hget
      obtain ⟨i, -, hi⟩ := h.metadata.audit.row_of_get hget
      rw [hrow] at hi
      obtain ⟨entry, hentry, hkey⟩ := Option.map_eq_some_iff.mp hi
      exact ⟨entry, List.mem_of_getElem? hentry, hkey⟩

/-- The rows of the log are what was appended, in order. -/
theorem Run.toList_audit (h : Run calls server) :
    server.rows.audit.toList = (appendsOf calls).map AuditEntry.row := by
  obtain ⟨a, hshows, hlog⟩ := h.exists_log
  rw [hlog]
  exact hshows.toList_audit

/-- It is numbered from one. -/
theorem Run.seqs_appendsOf (h : Run calls server) :
    (appendsOf calls).map AuditEntry.seq =
        (List.range' 1 (appendsOf calls).length).map UInt64.ofNat ∧
      (appendsOf calls).length < 2 ^ 64 := by
  obtain ⟨a, hshows, hlog⟩ := h.exists_log
  have hlength : (appendsOf calls).length = a.audit.length := by
    rw [hlog, numbered, List.length_map, List.length_zipIdx]
  rw [hlength, hlog]
  exact ⟨seqs_numbered a.audit, hshows.metadata.length_lt⟩

theorem Run.ordered_appendsOf (h : Run calls server) :
    (appendsOf calls).Pairwise fun entry entry' => entry.seq.toNat < entry'.seq.toNat := by
  obtain ⟨a, hshows, hlog⟩ := h.exists_log
  rw [hlog]
  exact ordered_numbered hshows.metadata.length_lt

/-- An entry is known by its number. -/
theorem Run.eq_of_seq_eq (h : Run calls server) {entry entry' : AuditEntry}
    (hentry : entry ∈ appendsOf calls) (hentry' : entry' ∈ appendsOf calls)
    (heq : entry.seq = entry'.seq) : entry = entry' := by
  have hnodup : ((appendsOf calls).map AuditEntry.seq).Nodup := by
    rw [List.Nodup, List.pairwise_map]
    refine h.ordered_appendsOf.imp fun {entry entry'} hlt heq => ?_
    rw [heq] at hlt
    exact lt_irrefl _ hlt
  exact List.inj_on_of_nodup_map hnodup hentry hentry' heq

/-- The numbers from one to the length of the log are taken. -/
theorem Run.mem_seqs_iff (h : Run calls server) {s : UInt64} :
    s ∈ (appendsOf calls).map AuditEntry.seq ↔
      1 ≤ s.toNat ∧ s.toNat ≤ (appendsOf calls).length := by
  obtain ⟨hseqs, hlength⟩ := h.seqs_appendsOf
  rw [hseqs, List.mem_map]
  constructor
  · rintro ⟨n, hn, rfl⟩
    rw [List.mem_range'_1] at hn
    rw [UInt64.toNat_ofNat_of_lt' (show n < 2 ^ 64 by omega)]
    omega
  · rintro ⟨hpos, hle⟩
    exact ⟨s.toNat, List.mem_range'_1.mpr ⟨hpos, by omega⟩, UInt64.ofNat_toNat⟩

omit [Prost] in
/-- What is appended stays. -/
theorem appendsOf_subset (h : calls <+: calls') : appendsOf calls ⊆ appendsOf calls' := by
  obtain ⟨later, rfl⟩ := h
  rw [appendsOf, appendsOf, List.flatMap_append]
  exact List.subset_append_left _ _

end Rows

/-! ### The pages -/

section Walk

variable [Prost] {filter : AuditFilter} {log : List AuditEntry} {before : Option UInt64}

/-- A request for a page, with the run that has made the store it is read from. -/
structure AuditVisit where
  calls : List Call
  server : Server
  limit : ℕ
  run : Run calls server
  limit_pos : 1 ≤ limit

omit [Prost] in
/-- The second number is the smaller one. -/
def SeqGt (s s' : UInt64) : Prop := s' < s

instance : IsTrans UInt64 SeqGt := ⟨fun _ _ _ h h' => UInt64.lt_trans h' h⟩

instance : Std.Irrefl SeqGt := ⟨UInt64.lt_irrefl⟩

/-- `list_audit` as a pager. -/
def audits (filter : AuditFilter) : Pager AuditVisit AuditPage UInt64 where
  read before visit :=
    listAudit visit.server.rows.audit (fun _ => false) before visit.limit filter
  items page := page.entries.map AuditEntry.seq
  next := AuditPage.nextBefore

/-- The pages from the newest entry on. -/
def auditPages (filter : AuditFilter) (visits : List AuditVisit) : List (AuditVisit × AuditPage) :=
  (audits filter).walk none visits

/-- The entries of a log before a cursor, the newest first. -/
def entriesBefore (log : List AuditEntry) (before : Option UInt64) : List AuditEntry :=
  (log.filter fun entry => before.all fun seq => entry.seq < seq).reverse

omit [Prost] in
theorem mem_entriesBefore {entry : AuditEntry} :
    entry ∈ entriesBefore log before ↔ entry ∈ log ∧ After SeqGt before entry.seq := by
  rw [entriesBefore, List.mem_reverse, List.mem_filter]
  refine and_congr_right fun _ => ?_
  cases before with
  | none => simp [After]
  | some seq => simp [After, SeqGt]

/-- The log holds a matching entry with this number. -/
def AuditVisit.Holds (filter : AuditFilter) (visit : AuditVisit) (seq : UInt64) : Prop :=
  ∃ entry ∈ appendsOf visit.calls, entry.seq = seq ∧ filter.admits entry = true

namespace AuditVisit

variable (visit : AuditVisit)

/-- The entries before a cursor go down. -/
theorem ordered_before (before : Option UInt64) :
    ((entriesBefore (appendsOf visit.calls) before).map AuditEntry.seq).Pairwise SeqGt := by
  rw [List.pairwise_map, entriesBefore, List.pairwise_reverse]
  refine (visit.run.ordered_appendsOf.filter _).imp fun {entry entry'} hlt => ?_
  exact UInt64.lt_iff_toNat_lt.mpr hlt

/-- A page has looked at some entries before its cursor, and at all of them if it has no cursor. -/
theorem exists_seen (filter : AuditFilter) (before : Option UInt64) :
    ∃ seen rest, entriesBefore (appendsOf visit.calls) before = seen ++ rest ∧
      ((audits filter).read before visit).entries = seen.filter filter.admits ∧
      (((audits filter).read before visit).nextBefore = none ∧ rest = [] ∨
        ∃ last, seen.getLast? = some last ∧ rest ≠ [] ∧
          ((audits filter).read before visit).nextBefore = some last.seq) := by
  have hrange : auditRange visit.server.rows.audit before =
      ((appendsOf visit.calls).filter fun entry => before.all fun seq => entry.seq < seq).map
        AuditEntry.row := by
    cases before with
    | none =>
      rw [auditRange, visit.run.toList_audit]
      exact congrArg _ (List.filter_eq_self.mpr fun _ _ => rfl).symm
    | some seq =>
      rw [auditRange, visit.run.toList_audit, List.filter_map]
      congr 2
      funext entry
      rw [Function.comp_apply, AuditEntry.row, compare_seqBytes, Option.all_some]
      exact Bool.eq_iff_iff.mpr (by simp [Nat.compare_eq_lt, UInt64.lt_iff_toNat_lt])
  have hread : (audits filter).read before visit = scanAudit visit.limit filter
      ((entriesBefore (appendsOf visit.calls) before).map fun entry => some entry.row) 0 [] 0 := by
    change scanAudit visit.limit filter
      ((auditRange visit.server.rows.audit before).reverse.map some) 0 [] 0 = _
    rw [hrange, ← List.map_reverse, List.map_map]
    rfl
  rw [hread]
  obtain ⟨seen, rest, hsplit, hentries, hnext⟩ := stopsBefore_scanAudit
    (entriesBefore (appendsOf visit.calls) before) 0 [] 0
  refine ⟨seen, rest, hsplit, hentries, hnext.imp_right ?_⟩
  rintro ⟨hsome, hrest, hempty⟩
  cases hlast : seen.getLast? with
  | none =>
    have hlimit := visit.limit_pos
    rcases hempty (List.getLast?_eq_none_iff.mp hlast) with hfull | hcap
    · rw [List.length_nil] at hfull
      omega
    · exact absurd hcap (by decide)
  | some last =>
    rw [hlast] at hsome
    exact ⟨last, rfl, hrest, hsome⟩

/-- Whether the log holds a matching entry with this number. -/
def holds (filter : AuditFilter) (seq : UInt64) : Bool :=
  (appendsOf visit.calls).any fun entry => entry.seq == seq && filter.admits entry

theorem holds_iff {seq : UInt64} : visit.holds filter seq = true ↔ visit.Holds filter seq := by
  simp [holds, Holds]

/-- An entry of the log is held if it matches. -/
theorem holds_seq {entry : AuditEntry} (hentry : entry ∈ appendsOf visit.calls) :
    visit.holds filter entry.seq = filter.admits entry := by
  rw [Bool.eq_iff_iff, holds_iff]
  refine ⟨fun ⟨entry', hentry', hseq, hadmits⟩ => ?_, fun hadmits => ⟨entry, hentry, rfl, hadmits⟩⟩
  rwa [← visit.run.eq_of_seq_eq hentry' hentry hseq]

theorem scan_audits (filter : AuditFilter) (before : Option UInt64) :
    Pager.Scan ((entriesBefore (appendsOf visit.calls) before).map AuditEntry.seq)
      (visit.holds filter) ((audits filter).items ((audits filter).read before visit))
      ((audits filter).next ((audits filter).read before visit)) := by
  obtain ⟨seen, rest, hsplit, hentries, hnext⟩ := visit.exists_seen filter before
  have hseen : ∀ entry ∈ seen, entry ∈ appendsOf visit.calls := fun entry hentry =>
    (mem_entriesBefore.mp (hsplit ▸ List.mem_append_left rest hentry)).1
  refine ⟨seen.map AuditEntry.seq, rest.map AuditEntry.seq, ?_, ?_, ?_⟩
  · rw [hsplit, List.map_append]
  · have hitems : (audits filter).items ((audits filter).read before visit) =
        (seen.filter filter.admits).map AuditEntry.seq :=
      congrArg (List.map AuditEntry.seq) hentries
    rw [hitems, List.filter_map]
    refine congrArg _ (List.filter_congr fun entry hentry => ?_)
    exact (visit.holds_seq (hseen entry hentry)).symm
  · rcases hnext with ⟨hnone, hrest⟩ | ⟨last, hlast, -, hsome⟩
    · exact .inl ⟨hnone, by rw [hrest, List.map_nil]⟩
    · exact .inr ⟨last.seq, by rw [List.getLast?_map, hlast, Option.map_some], hsome⟩

/-- A page with a cursor has a row behind it, and no entry. -/
theorem exists_behind {before : Option UInt64} {c : UInt64}
    (hc : ((audits filter).read before visit).nextBefore = some c) :
    (∃ entry ∈ appendsOf visit.calls, entry.seq < c) ∧
      ∀ entry ∈ ((audits filter).read before visit).entries, c ≤ entry.seq := by
  obtain ⟨seen, rest, hsplit, hentries, hnext⟩ := visit.exists_seen filter before
  have hordered := visit.ordered_before before
  rw [hsplit, List.map_append] at hordered
  obtain ⟨hseen, -, hbehind⟩ := List.pairwise_append.mp hordered
  rcases hnext with ⟨hnone, -⟩ | ⟨last, hlast, hrest, hsome⟩
  · cases hnone.symm.trans hc
  · obtain rfl : last.seq = c := Option.some.inj (hsome.symm.trans hc)
    have hlast' : (seen.map AuditEntry.seq).getLast? = some last.seq := by
      rw [List.getLast?_map, hlast, Option.map_some]
    refine ⟨?_, fun entry hentry => ?_⟩
    · obtain ⟨entry, hentry⟩ := List.exists_mem_of_ne_nil rest hrest
      have hbefore : entry ∈ entriesBefore (appendsOf visit.calls) before :=
        hsplit ▸ List.mem_append_right seen hentry
      refine ⟨entry, (mem_entriesBefore.mp hbefore).1, ?_⟩
      exact hbehind _ (List.mem_of_getLast? hlast') _ (List.mem_map_of_mem hentry)
    · rw [hentries] at hentry
      have hmem := List.mem_map_of_mem (f := AuditEntry.seq) (List.mem_of_mem_filter hentry)
      rcases Pager.eq_or_of_getLast? hseen hlast' hmem with heq | hlt
      · rw [heq]
        exact UInt64.le_refl _
      · exact UInt64.le_of_lt hlt

end AuditVisit

theorem sound_audits (filter : AuditFilter) :
    (audits filter).Sound SeqGt (AuditVisit.Holds filter) (fun _ => True) := by
  refine Pager.Sound.of_scan
    (fun before visit => (entriesBefore (appendsOf visit.calls) before).map AuditEntry.seq)
    (fun visit => visit.holds filter) (fun before visit _ => visit.scan_audits filter before)
    (fun before visit => visit.ordered_before before) (fun before visit seq hseq => ?_)
    (fun _ _ _ _ _ => trivial) fun before visit seq _ hafter => ?_
  · obtain ⟨entry, hentry, rfl⟩ := List.mem_map.mp hseq
    exact (mem_entriesBefore.mp hentry).2
  · rw [visit.holds_iff]
    refine ⟨fun hholds => ⟨?_, hholds⟩, And.right⟩
    obtain ⟨entry, hentry, rfl, -⟩ := hholds
    exact List.mem_map_of_mem (mem_entriesBefore.mpr ⟨hentry, hafter⟩)

/-- The entries of pages. -/
def pagedEntries (pages : List (AuditVisit × AuditPage)) : List AuditEntry :=
  pages.flatMap fun page => page.2.entries

theorem collected_audits (pages : List (AuditVisit × AuditPage)) :
    (audits filter).collected pages = (pagedEntries pages).map AuditEntry.seq := by
  rw [Pager.collected, pagedEntries, List.map_flatMap]
  rfl

/-- The entries of a walk go down. -/
theorem ordered_auditPages (visits : List AuditVisit) :
    (pagedEntries (auditPages filter visits)).Pairwise fun entry entry' =>
      entry'.seq < entry.seq := by
  have hordered : ((audits filter).collected (auditPages filter visits)).Pairwise SeqGt :=
    ((sound_audits filter).walk_ordered visits trivial).1
  rw [collected_audits, List.pairwise_map] at hordered
  exact hordered

/-- The entries of a page are matching entries of the log. -/
theorem mem_of_auditPages {visits : List AuditVisit} {page : AuditVisit × AuditPage}
    (hpage : page ∈ auditPages filter visits) {entry : AuditEntry}
    (hentry : entry ∈ page.2.entries) :
    entry ∈ appendsOf page.1.calls ∧ filter.admits entry = true := by
  obtain ⟨before, -, -, hread⟩ :=
    (sound_audits filter).exists_read_of_mem_walk visits trivial hpage
  obtain ⟨seen, rest, hsplit, hentries, -⟩ := page.1.exists_seen filter before
  rw [hread, hentries, List.mem_filter] at hentry
  exact ⟨(mem_entriesBefore.mp (hsplit ▸ List.mem_append_left rest hentry.1)).1, hentry.2⟩

/-- The cursors of a walk are numbers of the first log. -/
theorem cursors_subset (first : AuditVisit) (rest : List AuditVisit) :
    (audits filter).cursors (auditPages filter (first :: rest)) ⊆
      (appendsOf first.calls).map AuditEntry.seq := by
  have hsound := sound_audits filter
  have hnext : ∀ (visit : AuditVisit) before c,
      (audits filter).next ((audits filter).read before visit) = some c →
        c ∈ (appendsOf visit.calls).map AuditEntry.seq := by
    intro visit before c hc
    obtain ⟨entry, hentry, rfl⟩ :=
      List.mem_map.mp ((visit.scan_audits filter before).next_mem hc)
    exact List.mem_map_of_mem (mem_entriesBefore.mp hentry).1
  rw [auditPages, Pager.walk]
  cases hc : (audits filter).next ((audits filter).read none first) with
  | none =>
    rw [Pager.cursors_cons_none _ hc]
    exact List.nil_subset _
  | some c =>
    have hfirst := first.run.mem_seqs_iff.mp (hnext first none c hc)
    rw [Pager.cursors_cons_some _ hc]
    refine List.cons_subset.mpr ⟨hnext first none c hc, fun c' hc' => ?_⟩
    have hlt := (hsound.cursors_ordered rest trivial).2 c' hc' c rfl
    obtain ⟨page, hpage, hpage'⟩ := List.mem_filterMap.mp hc'
    obtain ⟨before, -, -, hread⟩ := hsound.exists_read_of_mem_walk rest trivial hpage
    rw [hread] at hpage'
    have hlater := page.1.run.mem_seqs_iff.mp (hnext page.1 before c' hpage')
    exact first.run.mem_seqs_iff.mpr ⟨hlater.1, by have := UInt64.lt_iff_toNat_lt.mp hlt; omega⟩

variable {first : AuditVisit} {rest : List AuditVisit}
  (hgrows : (first :: rest).Pairwise fun visit visit' => visit.calls <+: visit'.calls)

include hgrows

/-- The log of every visit has the entries of the first. -/
theorem appendsOf_subset_of_mem {visit : AuditVisit} (hvisit : visit ∈ first :: rest) :
    appendsOf first.calls ⊆ appendsOf visit.calls := by
  rcases List.mem_cons.mp hvisit with rfl | hvisit
  · exact List.Subset.refl _
  · exact appendsOf_subset ((List.pairwise_cons.mp hgrows).1 visit hvisit)

/-- What was there at the first visit is returned once. -/
theorem count_auditPages (hfinished : (audits filter).Finished (auditPages filter (first :: rest)))
    {entry : AuditEntry} (hentry : entry ∈ appendsOf first.calls)
    (hadmits : filter.admits entry = true) :
    (pagedEntries (auditPages filter (first :: rest))).count entry = 1 := by
  have hsound := sound_audits filter
  have hseq : entry.seq ∈ (audits filter).collected (auditPages filter (first :: rest)) := by
    refine hsound.mem_walk (first :: rest) trivial hfinished (after_none SeqGt entry.seq) ?_
    intro page hpage
    obtain ⟨-, -, hvisit, -⟩ := hsound.exists_read_of_mem_walk (first :: rest) trivial hpage
    exact ⟨entry, appendsOf_subset_of_mem hgrows hvisit hentry, rfl, hadmits⟩
  rw [collected_audits] at hseq
  obtain ⟨entry', hentry', heq⟩ := List.mem_map.mp hseq
  obtain ⟨page, hpage, hmem⟩ := List.mem_flatMap.mp hentry'
  obtain ⟨-, -, hvisit, -⟩ := hsound.exists_read_of_mem_walk (first :: rest) trivial hpage
  obtain rfl := page.1.run.eq_of_seq_eq (mem_of_auditPages hpage hmem).1
    (appendsOf_subset_of_mem hgrows hvisit hentry) heq
  refine List.count_eq_one_of_mem ?_ hentry'
  refine (ordered_auditPages (first :: rest)).imp fun {entry entry'} hlt heq => ?_
  rw [heq] at hlt
  exact UInt64.lt_irrefl _ hlt

end Walk

/-! ### The log -/

section Log

variable [Prost]

/-- Committed rounds are a run; it has the rows of its appends, numbered from one in their order,
and what is returned to a caller is the number of the caller's own record. A walk through the pages
of the log, as it grows, returns matching entries only, the newest first, and ends; then it has
returned each matching entry of the first visit once. -/
theorem audit_log :
    (∀ rounds, AdmissibleRounds rounds →
      Run (committedCalls {} rounds) (Server.after {} rounds) ∧
      ∀ earlier round later, rounds = earlier ++ round :: later → ∀ resp seq tsMs,
        (resp, .op (.ok (.auditAppend seq tsMs))) ∈ (round.run (Server.after {} earlier)).replies →
        ∃ env rpcs record now, round = .rpc env rpcs ∧ .op (.auditAppend record now) resp ∈ rpcs ∧
          (⟨seq, tsMs, record⟩ : AuditEntry) ∈ appendsOf (committedCalls {} rounds)) ∧
    (∀ calls server, Run calls server →
      server.rows.audit.toList = (appendsOf calls).map AuditEntry.row ∧
      (appendsOf calls).map AuditEntry.seq =
        (List.range' 1 (appendsOf calls).length).map UInt64.ofNat ∧
      (appendsOf calls).length < 2 ^ 64) ∧
    ∀ (filter : AuditFilter) (first : AuditVisit) (rest : List AuditVisit),
      ((first :: rest).Pairwise fun visit visit' => visit.calls <+: visit'.calls) →
      ((pagedEntries (auditPages filter (first :: rest))).Pairwise fun entry entry' =>
        entry'.seq < entry.seq) ∧
      (∀ page ∈ auditPages filter (first :: rest),
        (∀ entry ∈ page.2.entries,
          entry ∈ appendsOf page.1.calls ∧ filter.admits entry = true) ∧
        ∀ c, page.2.nextBefore = some c → (∃ entry ∈ appendsOf page.1.calls, entry.seq < c) ∧
          ∀ entry ∈ page.2.entries, c ≤ entry.seq) ∧
      ((audits filter).Finished (auditPages filter (first :: rest)) →
        ∀ entry ∈ appendsOf first.calls, filter.admits entry = true →
          (pagedEntries (auditPages filter (first :: rest))).count entry = 1) ∧
      ((appendsOf first.calls).length ≤ rest.length →
        (audits filter).Finished (auditPages filter (first :: rest))) := by
  refine ⟨fun rounds hadm => ⟨Run.of_rounds hadm, ?_⟩,
    fun calls server h => ⟨h.toList_audit, h.seqs_appendsOf⟩, fun filter first rest hgrows => ?_⟩
  · rintro earlier round later rfl resp seq tsMs hreply
    obtain ⟨env, rpcs, op, rfl, hop, hcall⟩ := Round.committed_of_reply hreply
    have hmem : .answered (op.stamp env.now) (.ok (.auditAppend seq tsMs)) ∈
        committedCalls {} (earlier ++ .rpc env rpcs :: later) := by
      rw [committedCalls_append, committedCalls]
      exact List.mem_append_right _ (List.mem_append_left _ hcall)
    obtain ⟨record, hstamp⟩ := (Run.of_rounds hadm).exists_record hmem
    obtain ⟨now, rfl⟩ := op.exists_of_stamp hstamp
    rw [hstamp] at hmem
    refine ⟨env, rpcs, record, now, rfl, hop, ?_⟩
    exact List.mem_flatMap.mpr ⟨_, hmem, List.mem_singleton_self _⟩
  · have hsound := sound_audits filter
    refine ⟨ordered_auditPages _, fun page hpage => ⟨fun entry => mem_of_auditPages hpage, ?_⟩,
      fun hfinished entry => count_auditPages hgrows hfinished, fun hlength => ?_⟩
    · intro c hc
      obtain ⟨before, -, -, hread⟩ := hsound.exists_read_of_mem_walk _ trivial hpage
      rw [hread] at hc ⊢
      exact page.1.exists_behind hc
    · refine hsound.finished_of_cursors trivial (cursors_subset first rest) ?_
      rw [List.length_map, List.length_cons]
      omega

end Log

/-- A cycle of appends. -/
def appendCycle (now : Int64) (commitFails : Bool) (records : List AuditRecord) : Round :=
  .rpc { now, metricsEnabled := false, faults := fun _ => none, commitFails }
    (records.zipIdx.map fun (record, resp) => .op (.auditAppend record 0) resp)

/-- A record of an action. -/
def auditOf (action : String) : AuditRecord := ⟨"root", "admin", action, ""⟩

/-- Two appends, one whose cycle is rolled back, and after a restart another one. -/
def auditRounds : List Round :=
  [appendCycle 500 false [auditOf "login", auditOf "purge"],
   appendCycle 400 true [auditOf "login"], .restart, appendCycle 300 false [auditOf "login"]]

/-- One more append. -/
def moreRounds : List Round := auditRounds ++ [appendCycle 600 false [auditOf "login"]]

open WireFormat in
/-- A request for a page of one entry, after rounds. -/
def auditVisit (rounds : List Round) (hadm : AdmissibleRounds rounds) : AuditVisit where
  calls := committedCalls {} rounds
  server := Server.after {} rounds
  limit := 1
  run := Run.of_rounds hadm
  limit_pos := Nat.le_refl 1

theorem admissible_auditRounds : AdmissibleRounds auditRounds := ⟨by decide, by decide⟩

theorem admissible_moreRounds : AdmissibleRounds moreRounds := ⟨by decide, by decide⟩

open WireFormat in
/-- Three entries are committed, one of them with an earlier stamp. A walk from there, in the course
of which another one is appended, returns the first one. -/
theorem audit_log_moreRounds :
    (Server.after {} auditRounds).rows.audit.toList =
      [(⟨1, 500, auditOf "login"⟩ : AuditEntry), ⟨2, 500, auditOf "purge"⟩,
        ⟨3, 300, auditOf "login"⟩].map AuditEntry.row ∧
    (pagedEntries (auditPages { actionPrefix := some "log" }
      (auditVisit auditRounds admissible_auditRounds ::
        List.replicate 3 (auditVisit moreRounds admissible_moreRounds)))).count
      ⟨1, 500, auditOf "login"⟩ = 1 := by
  have hlog : appendsOf (committedCalls {} auditRounds) = [⟨1, 500, auditOf "login"⟩,
      ⟨2, 500, auditOf "purge"⟩, ⟨3, 300, auditOf "login"⟩] := by
    decide +kernel
  obtain ⟨hrounds, hruns, hwalks⟩ := audit_log
  have hrun := (hrounds auditRounds admissible_auditRounds).1
  obtain ⟨-, -, hcount, hends⟩ := hwalks { actionPrefix := some "log" }
    (auditVisit auditRounds admissible_auditRounds)
    (List.replicate 3 (auditVisit moreRounds admissible_moreRounds)) (by
      have hgrows : committedCalls {} auditRounds <+: committedCalls {} moreRounds := by
        rw [moreRounds, committedCalls_append]
        exact List.prefix_append _ _
      have hsame := List.prefix_refl (committedCalls {} moreRounds)
      simp only [List.replicate, List.pairwise_cons, List.mem_cons, List.not_mem_nil, or_false,
        or_self, forall_eq]
      exact ⟨hgrows, hsame, hsame, fun _ h => h.elim, .nil⟩)
  have hfinished := hends (by
    change (appendsOf (committedCalls {} auditRounds)).length ≤ _
    rw [hlog, List.length_replicate]
    exact Nat.le_refl 3)
  refine ⟨?_, hcount hfinished ⟨1, 500, auditOf "login"⟩ ?_ (by decide)⟩
  · rw [(hruns _ _ hrun).1, hlog]
  · change _ ∈ appendsOf (committedCalls {} auditRounds)
    rw [hlog]
    exact List.mem_cons_self

end Sepp
