import Sepp.Run.Admission
import Sepp.Run.Deliveries
import Sepp.Run.Outcomes
import Sepp.Wire.RoundTrip

/-!
# Reserve serves the queues in order

After every admitted run, reserve answers with the first jobs of the lines of its queues, one line
after the other, where a queue that comes again has nothing left. In its line a job of higher
priority comes first, then the older job, then the smaller id. The jobs of the reply move from
`ready` to a lease that ends after the time that was asked for, and no other row changes.

## Main definitions

* `Rows.InLine` — the ready jobs of a queue, in the order in which they are reserved.
* `Rows.lease` — the rows after the delivery of a job.

## Main results

* `Run.reserve_in_order`.
-/

open Std

namespace Sepp

/-- The ready jobs of the queue: by priority, the highest first, then by age, then by id. -/
structure Rows.InLine (rows : Rows) (queue : String) (line : List ReadyKey) : Prop where
  mem_iff : ∀ k, k ∈ line ↔ k.queue = queue ∧ ∃ key ∈ rows.ready, ReadyKey.decode key = some k
  sorted : line.Pairwise ReadyKey.Before

section Reserving

variable [Prost]

/-- The inflight record of a job that is delivered. -/
def Job.inflight (expires : Int64) (job : Job) : Inflight where
  attempt := job.attempt
  leaseExpiresAt := expires
  enqueuedAt := (job.enqueuedAt.map timestampToMillis).getD 0
  priority := job.priority
  maxAttempts := job.maxAttempts
  queue := job.queue
  traceContext := job.traceContext

/-- The rows after the delivery of a job: its place in line is gone, and it is leased. -/
def Rows.lease (expires : Int64) (rows : Rows) (job : Job) : Rows :=
  { rows with
    ready := rows.ready.erase job.readyKey.encode
    inflight := rows.inflight.insert (asBytes job.id) (job.inflight expires).encode
    leases := rows.leases.insert (TimerKey.encode { deadline := expires, jobId := job.id }) [] }

variable {a a' : Image} {rows : Rows} {idx : Indexes} {jobs : List Job} {expires : Int64}

/-! ### What leases do -/

theorem JobState.inflight_deliveredJob (js : JobState) (id : String) (attempt : UInt32)
    (expires : Int64) :
    (js.deliveredJob id attempt expires).inflight expires = js.inflight attempt expires :=
  congrArg (fun t => { js.inflight attempt expires with enqueuedAt := t })
    (js.storedJob_enqueuedAt id)

/-- The rows of a lease. -/
theorem Represents.of_lease {job : Job} (h : Represents a rows idx)
    (hstep : Step a (.lease job expires) a') :
    ∃ idx', Represents a' (rows.lease expires job) idx' := by
  cases hstep with
  | @lease id js attempt _ hJ hp =>
    have hmoved := h.setJob ((h.jobs.unplace_ready hJ hp).place_leased
      (Function.update_self ..) rfl attempt expires).of_two_moves (by simp) rfl rfl
    rw [Rows.lease, JobState.readyKey_deliveredJob, JobState.inflight_deliveredJob]
    exact ⟨_, hmoved⟩

/-- The rows of some leases. -/
theorem Represents.of_leases (h : Represents a rows idx)
    (htrace : Trace Step a (jobs.map (Event.lease · expires)) a') :
    ∃ idx', Represents a' (jobs.foldl (Rows.lease expires) rows) idx' := by
  induction jobs generalizing a rows idx with
  | nil =>
    cases htrace
    exact ⟨idx, h⟩
  | cons job jobs ih =>
    cases htrace with
    | cons hstep hrest =>
      obtain ⟨idx₁, h₁⟩ := h.of_lease hstep
      exact ih h₁ hrest

/-- The jobs that are leased were ready, and no two of them are the same. -/
theorem ready_of_leases (htrace : Trace Step a (jobs.map (Event.lease · expires)) a') :
    (jobs.map Job.id).Nodup ∧ ∀ job ∈ jobs, ∃ js attempt, a.jobs job.id = some js ∧
      js.place = .ready attempt ∧ job = js.deliveredJob job.id attempt expires := by
  induction jobs generalizing a with
  | nil => exact ⟨List.nodup_nil, fun job hjob => absurd hjob List.not_mem_nil⟩
  | cons job jobs ih =>
    cases htrace with
    | cons hstep hrest =>
      obtain ⟨hnodup, hready⟩ := ih hrest
      cases hstep with
      | @lease id js attempt _ hJ hp =>
        have hother : ∀ job' ∈ jobs, job'.id ≠ id := by
          intro job' hjob' heq
          obtain ⟨js', attempt', hJ', hp', -⟩ := hready job' hjob'
          rw [heq, Image.setJob_jobs, Function.update_self, Option.some.injEq] at hJ'
          rw [← hJ'] at hp'
          cases hp'
        refine ⟨List.nodup_cons.mpr ⟨fun hmem => ?_, hnodup⟩, fun job' hjob' => ?_⟩
        · obtain ⟨job', hjob', heq⟩ := List.mem_map.mp hmem
          exact hother job' hjob' heq
        · rcases List.mem_cons.mp hjob' with rfl | hjob'
          · exact ⟨js, attempt, hJ, hp, rfl⟩
          · obtain ⟨js', attempt', hJ', hp', heq⟩ := hready job' hjob'
            rw [Image.setJob_jobs, Function.update_of_ne (hother job' hjob')] at hJ'
            exact ⟨js', attempt', hJ', hp', heq⟩

/-! ### The line of a queue -/

/-- Reserve takes jobs of the queues it is asked for. -/
theorem Server.Shows.queue_of_reserved {server server' : Server} (h : server.Shows a)
    {queues : List String} (hqueues : ∀ queue ∈ queues, FitsPrefix queue)
    {leaseMs maxJobs : UInt64} {now : Int64}
    (hstep : CallStep server
      (.answered (.reserve queues leaseMs maxJobs now) (.ok (.reserve jobs))) server') :
    ∀ job ∈ jobs, job.queue ∈ queues := by
  obtain ⟨a', hshows', htrace, hserves⟩ := h.reserved hstep
  choose keys hkeys using fun queue => h.exists_line (queuePrefix queue)
  have hserved := hserves keys hqueues fun queue _ => hkeys queue
  intro job hjob
  obtain ⟨js, attempt, -, -, heq⟩ := (ready_of_leases htrace).2 job hjob
  have hmem : job.readyKey.encode ∈ (queues.eraseDups.flatMap keys).take maxJobs.toNat := by
    rw [← hserved]
    exact List.mem_map_of_mem hjob
  obtain ⟨queue, hqueue, hkey⟩ := List.mem_flatMap.mp (List.mem_of_mem_take hmem)
  have hmem := List.mem_eraseDups.mp hqueue
  have hprefix := (((hkeys queue).mem_iff _).mp hkey).1
  rw [heq, JobState.readyKey_deliveredJob] at hprefix
  have hown : job.queue = queue := by
    rw [heq]
    exact queue_eq_of_isPrefix (hqueues queue hmem) hprefix
  rwa [hown]

omit [Prost] in
/-- The key of a job in line, read back. -/
theorem JobState.decode_readyKey_eq (js : JobState) (hp : js.content.priority ≤ 9) (id : String) :
    ReadyKey.decode (js.readyKey id) = some
      { queue := js.content.queue
        priority := js.content.priority
        enqueuedAt := js.enqueuedAt
        jobId := id } := by
  rw [JobState.decode_readyKey, ReadyKey.clampPriority_of_le hp]

/-- What a ready key says. -/
def placeInLine (key : Bytes) : ReadyKey :=
  (ReadyKey.decode key).getD { queue := "", priority := 0, enqueuedAt := 0, jobId := "" }

/-- In an orderly state the byte order of the keys is the order of the line. -/
theorem Image.Line.inLine (hrep : Represents a rows idx) (ha : a.Orderly) {queue : String}
    (hq : FitsPrefix queue) {keys : List Bytes} (h : a.Line (queuePrefix queue) keys) :
    rows.InLine queue (keys.map placeInLine) := by
  have hread : ∀ key ∈ keys, ∃ id js attempt, a.jobs id = some js ∧ js.place = .ready attempt ∧
      key = js.readyKey id ∧ js.content.priority ≤ 9 ∧ js.content.queue.1 = queue := by
    intro key hkey
    obtain ⟨hpre, id, js, attempt, hJ, hp, rfl⟩ := (h.mem_iff key).mp hkey
    exact ⟨id, js, attempt, hJ, hp, rfl, (ha.jobs id js hJ).2, queue_eq_of_isPrefix hq hpre⟩
  refine ⟨fun k => ?_, ?_⟩
  · rw [List.mem_map]
    constructor
    · rintro ⟨key, hkey, rfl⟩
      obtain ⟨id, js, attempt, hJ, hp, rfl, hle, hqueue⟩ := hread key hkey
      rw [placeInLine, js.decode_readyKey_eq hle id]
      refine ⟨hqueue, js.readyKey id, ?_, js.decode_readyKey_eq hle id⟩
      exact ExtTreeMap.mem_iff_exists.mpr ⟨_, hrep.jobs.get_ready hJ hp⟩
    · rintro ⟨hqueue, key, hkey, hdecode⟩
      obtain ⟨value, hvalue⟩ := ExtTreeMap.mem_iff_exists.mp hkey
      obtain ⟨id, js, attempt, hJ, hp, rfl⟩ := hrep.jobs.of_ready_row hvalue
      refine ⟨js.readyKey id, (h.mem_iff _).mpr ⟨?_, id, js, attempt, hJ, hp, rfl⟩, ?_⟩
      · rw [js.decode_readyKey_eq (ha.jobs id js hJ).2 id, Option.some.injEq] at hdecode
        rw [← hqueue, ← hdecode]
        exact List.prefix_append _ _
      · rw [placeInLine, hdecode, Option.getD_some]
  · refine List.pairwise_map.mpr (h.sorted.imp_of_mem fun {key key'} hkey hkey' hlt => ?_)
    obtain ⟨id, js, -, -, -, rfl, hle, hqueue⟩ := hread key hkey
    obtain ⟨id', js', -, -, -, rfl, hle', hqueue'⟩ := hread key' hkey'
    rw [placeInLine, placeInLine, js.decode_readyKey_eq hle id, js'.decode_readyKey_eq hle' id']
    exact ReadyKey.before_of_compare (hqueue.trans hqueue'.symm) hle hle' js.enqueuedAt.2
      js'.enqueuedAt.2 hlt

/-- A delivered job keeps its place in line. -/
theorem placeInLine_encode_readyKey {job : Job} {js : JobState} {attempt : UInt32}
    (hp : js.content.priority ≤ 9) (hjob : job = js.deliveredJob job.id attempt expires) :
    placeInLine job.readyKey.encode = job.readyKey := by
  rw [hjob, JobState.readyKey_deliveredJob, placeInLine, js.decode_readyKey_eq hp]
  exact congrArg (fun t => (⟨_, _, t, _⟩ : ReadyKey)) (js.storedJob_enqueuedAt job.id).symm

/-- What reserve answers and does, after every admitted run. -/
theorem Run.reserve_in_order {calls : List Call} {server : Server} (h : Run calls server)
    (hadm : ∀ call ∈ calls, call.Admitted) {queues : List String}
    (hfits : ∀ queue ∈ queues, FitsPrefix queue) (leaseMs maxJobs : UInt64) (now : Int64) :
    (∃ jobs server', server.perform (.reserve queues leaseMs maxJobs now) =
      (.answered (.reserve queues leaseMs maxJobs now) (.ok (.reserve jobs)), server')) ∧
    ∀ (jobs : List Job) (server' : Server),
      CallStep server (.answered (.reserve queues leaseMs maxJobs now) (.ok (.reserve jobs)))
        server' →
      (∃ line : String → List ReadyKey,
        (∀ queue ∈ queues, server.rows.InLine queue (line queue)) ∧
        jobs.map Job.readyKey = (queues.eraseDups.flatMap line).take maxJobs.toNat) ∧
      (jobs.map Job.id).Nodup ∧
      (∀ job ∈ jobs,
        server.rows.ready[job.readyKey.encode]? = some (KeyWriter.u32 job.attempt) ∧
        job.leaseExpiresAt = some (millisToTimestamp (saturatingAdd now (i64OfU64 leaseMs)))) ∧
      server'.rows =
        jobs.foldl (Rows.lease (saturatingAdd now (i64OfU64 leaseMs))) server.rows := by
  obtain ⟨a, hshows, horderly⟩ := h.exists_orderly hadm
  refine ⟨?_, fun jobs server' hstep => ?_⟩
  · obtain ⟨jobs, server', -, hperform, -⟩ :=
      hshows.perform_reserve queues leaseMs maxJobs now
    exact ⟨jobs, server', hperform⟩
  obtain ⟨a', hshows', htrace, hserves⟩ := hshows.reserved hstep
  obtain ⟨hnodup, hready⟩ := ready_of_leases htrace
  refine ⟨?_, hnodup, fun job hjob => ?_, ?_⟩
  · choose keys hkeys using fun queue => hshows.exists_line (queuePrefix queue)
    refine ⟨fun queue => (keys queue).map placeInLine,
      fun queue hqueue => (hkeys queue).inLine hshows horderly (hfits queue hqueue), ?_⟩
    rw [← List.map_flatMap, ← List.map_take, ← hserves keys hfits fun queue _ => hkeys queue,
      List.map_map]
    refine List.map_congr_left fun job hjob => ?_
    obtain ⟨js, attempt, hJ, -, heq⟩ := hready job hjob
    exact (placeInLine_encode_readyKey (horderly.jobs _ js hJ).2 heq).symm
  · obtain ⟨js, attempt, hJ, hp, heq⟩ := hready job hjob
    rw [heq, JobState.readyKey_deliveredJob]
    exact ⟨hshows.jobs.get_ready hJ hp, rfl⟩
  · obtain ⟨idx', hrep⟩ := hshows.of_leases htrace
    exact hshows'.rows_eq hrep

end Reserving

/-- Three jobs for two queues. -/
def waitingJobs : List Op :=
  let job (id queue : String) (priority : UInt32) : PreparedJob :=
    { id
      req := { queue, jobType := "send" }
      limits := { priority, maxAttempts := 3, dedupWindowMs := 60000 } }
  [.enqueue [job "a" "emails" 5, job "b" "texts" 5, job "c" "emails" 9] 1000]

open WireFormat Server in
/-- The line of the first queue is served first, and counts once. -/
theorem reserve_in_order_waitingJobs :
    ∃ (jobs : List Job) (line : String → List ReadyKey), jobs.map Job.id = ["c", "a"] ∧
      (∀ queue ∈ ["emails", "emails", "texts"],
        (performAll waitingJobs {}).2.rows.InLine queue (line queue)) ∧
      jobs.map Job.readyKey = ((["emails", "emails", "texts"].eraseDups).flatMap line).take 2 := by
  obtain ⟨⟨jobs, server', hperform⟩, hexact⟩ :=
    Run.reserve_in_order (Run.of_performAll (show ∀ op ∈ waitingJobs, op.WellFormed by decide)
      (by decide)) (by decide +kernel) (show ∀ queue ∈ ["emails", "emails", "texts"],
        FitsPrefix queue by decide) 30000 2 2000
  have hstep := callStep_perform (performAll waitingJobs {}).2
    (.reserve ["emails", "emails", "texts"] 30000 2 2000)
  have hids : ((performAll waitingJobs {}).2.perform
      (.reserve ["emails", "emails", "texts"] 30000 2 2000)).1.delivered.map Job.id =
        ["c", "a"] := by decide +kernel
  rw [hperform] at hstep hids
  obtain ⟨⟨line, hline, hjobs⟩, -⟩ := hexact jobs server' hstep
  exact ⟨jobs, line, hids, hline, hjobs⟩

end Sepp
