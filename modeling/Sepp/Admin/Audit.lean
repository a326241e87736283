import Sepp.Committer.Cycle
import Sepp.Library.Pages

/-!
# Reading the audit log

`AuditFilter::matches` and `ReadHandle::list_audit` of `src/storage.rs`. A page goes backwards from
its cursor. It stops when it has enough entries, or when it has looked at enough rows, and both are
checked before a row is consumed.

## Main definitions

* `listAudit`.

## Main results

* `stopsBefore_scanAudit` — what the loop has seen when it stops.
-/

open Std

namespace Sepp

/-- `AuditEntry`. -/
structure AuditEntry where
  seq : UInt64
  tsMs : Int64
  record : AuditRecord
deriving DecidableEq, Repr

/-- `AuditFilter`. -/
structure AuditFilter where
  actor : Option String := none
  actionPrefix : Option String := none

/-- `AuditFilter::matches`. -/
def AuditFilter.matches (filter : AuditFilter) (record : AuditRecord) : Bool :=
  (filter.actor.all fun a => record.actor == a) &&
    filter.actionPrefix.all fun p => (asBytes p).isPrefixOf (asBytes record.action)

/-- The filter matches the record of an entry. -/
def AuditFilter.admits (filter : AuditFilter) (entry : AuditEntry) : Bool :=
  filter.matches entry.record

/-- `AuditPage`. -/
structure AuditPage where
  entries : List AuditEntry
  nextBefore : Option UInt64
deriving DecidableEq, Repr

/-- `AUDIT_SCAN_CAP`. -/
def auditScanCap : ℕ := 1000

section List

variable [Prost]

/-- The loop of `list_audit`; a row that cannot be read is `none`. -/
def scanAudit (limit : ℕ) (filter : AuditFilter) :
    List (Option (Bytes × Bytes)) → ℕ → List AuditEntry → UInt64 → AuditPage
  | [], _, entries, _ => { entries, nextBefore := none }
  | row :: rows, scanned, entries, lastSeq =>
    if limit ≤ entries.length ∨ auditScanCap ≤ scanned then
      { entries, nextBefore := some lastSeq }
    else
      match row with
      | none => scanAudit limit filter rows (scanned + 1) entries lastSeq
      | some (key, value) =>
        if key.length = 8 then
          let lastSeq := UInt64.ofNat (BigEndian.ofBytes key)
          match AuditValue.decode value with
          | some (tsMs, record) =>
            if filter.matches record then
              scanAudit limit filter rows (scanned + 1)
                (entries ++ [{ seq := lastSeq, tsMs, record }]) lastSeq
            else scanAudit limit filter rows (scanned + 1) entries lastSeq
          | none => scanAudit limit filter rows (scanned + 1) entries lastSeq
        else scanAudit limit filter rows (scanned + 1) entries lastSeq

/-- `range(..seq)`, or all rows. -/
def auditRange (audit : Keyspace) : Option UInt64 → List (Bytes × Bytes)
  | some seq => audit.toList.filter fun row => (compare row.1 (seqBytes seq)).isLT
  | none => audit.toList

/-- `ReadHandle::list_audit`, where `failing` are the keys of the rows that cannot be read. -/
def listAudit (audit : Keyspace) (failing : Bytes → Bool) (before : Option UInt64) (limit : ℕ)
    (filter : AuditFilter) : AuditPage :=
  scanAudit limit filter
    ((auditRange audit before).reverse.map fun row => if failing row.1 then none else some row)
    0 [] 0

/-- The row of an entry. -/
def AuditEntry.row (entry : AuditEntry) : Bytes × Bytes :=
  (seqBytes entry.seq, AuditValue.encode { tsMs := entry.tsMs, record := entry.record })

variable {limit scanned : ℕ} {filter : AuditFilter} {log entries : List AuditEntry}
  {lastSeq : UInt64}

/-- The loop has looked at some more entries of the log and stopped: at its end, or before an entry
that it has not looked at, with the last one it has as its cursor. -/
def StopsBefore (limit : ℕ) (filter : AuditFilter) (log : List AuditEntry) (scanned : ℕ)
    (entries : List AuditEntry) (lastSeq : UInt64) (page : AuditPage) : Prop :=
  ∃ seen rest, log = seen ++ rest ∧
    page.entries = entries ++ seen.filter filter.admits ∧
    (page.nextBefore = none ∧ rest = [] ∨
      page.nextBefore = some ((seen.getLast?.map AuditEntry.seq).getD lastSeq) ∧ rest ≠ [] ∧
        (seen = [] → limit ≤ entries.length ∨ auditScanCap ≤ scanned))

omit [Prost] in
/-- It has looked at one entry before. -/
theorem StopsBefore.cons {entry : AuditEntry} {page : AuditPage}
    (h : StopsBefore limit filter log (scanned + 1)
      (entries ++ [entry].filter filter.admits) entry.seq page) :
    StopsBefore limit filter (entry :: log) scanned entries lastSeq page := by
  obtain ⟨seen, rest, hsplit, hentries, hnext⟩ := h
  refine ⟨entry :: seen, rest, by rw [hsplit, List.cons_append], ?_, ?_⟩
  · rw [hentries, List.append_assoc, ← List.filter_append, List.singleton_append]
  · refine hnext.imp_right fun ⟨hnext, hrest, _⟩ => ⟨?_, hrest, fun hnil => by cases hnil⟩
    rw [hnext, List.getLast?_cons]
    cases seen.getLast? <;> rfl

theorem stopsBefore_scanAudit (log : List AuditEntry) (scanned : ℕ) (entries : List AuditEntry)
    (lastSeq : UInt64) :
    StopsBefore limit filter log scanned entries lastSeq
      (scanAudit limit filter (log.map fun entry => some entry.row) scanned entries lastSeq) := by
  induction log generalizing scanned entries lastSeq with
  | nil => exact ⟨[], [], rfl, (List.append_nil entries).symm, .inl ⟨rfl, rfl⟩⟩
  | cons entry log ih =>
    have hkey : (seqBytes entry.seq).length = 8 := BigEndian.length_toBytes _ _
    have hseq : UInt64.ofNat (BigEndian.ofBytes (seqBytes entry.seq)) = entry.seq := by
      rw [seqBytes, BigEndian.ofBytes_toBytes_of_lt (by simpa using entry.seq.toNat_lt),
        UInt64.ofNat_toNat]
    rw [List.map_cons, AuditEntry.row, scanAudit]
    by_cases hstop : limit ≤ entries.length ∨ auditScanCap ≤ scanned
    · rw [if_pos hstop]
      exact ⟨[], entry :: log, rfl, (List.append_nil entries).symm,
        .inr ⟨rfl, List.cons_ne_nil _ _, fun _ => hstop⟩⟩
    · rw [if_neg hstop]
      dsimp only
      rw [if_pos hkey, AuditValue.decode_encode, hseq]
      refine .cons ?_
      by_cases hmatches : filter.matches entry.record = true
      · rw [List.filter_cons_of_pos (show filter.admits entry = true from hmatches)]
        dsimp only
        rw [if_pos hmatches]
        exact ih (scanned + 1) _ entry.seq
      · rw [List.filter_cons_of_neg (show ¬ filter.admits entry = true from hmatches),
          List.filter_nil, List.append_nil]
        dsimp only
        rw [if_neg hmatches]
        exact ih (scanned + 1) entries entry.seq

end List

end Sepp
