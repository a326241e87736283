import Sepp.Run.Deliveries

/-!
# What a job carries

A job carries the same content from its insertion to its end. Job ids are never reused, so the
content that the store holds under an id is the content of the one job that was enqueued under it.

## Main results

* `Run.exists_contents` — every job has the content that was enqueued under its id.
* `Image.ContentsOf.content_eq` — at two points of a run this is the same content.
-/

namespace Sepp

section Contents

variable [Prost] {id : String} {a : Image} {server server' : Server}

/-- A job has the content it had before, or that of the job that is inserted. -/
theorem JobStep.content {x x' : Option JobState} {e : Event} (h : JobStep id x e x')
    {js' : JobState} (hx' : x' = some js') :
    (∃ js, x = some js ∧ js.content = js'.content) ∨
      ∃ job now hq, e = .insert job now ∧ job.id = id ∧ js'.content = job.content hq := by
  subst hx'
  cases h with
  | other => exact .inl ⟨js', rfl, rfl⟩
  | @insert job now hq hid => exact .inr ⟨job, now, hq, rfl, hid, rfl⟩
  | lease | retry | extend | promote | redeliver | keep | requeue => exact .inl ⟨_, rfl, rfl⟩

/-- Every job is one of those that were enqueued, and has its content. -/
def Image.ContentsOf (a : Image) (jobs : List PreparedJob) : Prop :=
  ∀ id js, a.jobs id = some js → ∃ job ∈ jobs, ∃ hq, job.id = id ∧ js.content = job.content hq

theorem Run.exists_contents {calls : List Call} (h : Run calls server) :
    ∃ a, server.Shows a ∧ a.ContentsOf (calls.flatMap Call.jobs) := by
  obtain ⟨turns, a, rfl, hturns, hshows, -⟩ := h.exists_turns
  refine ⟨a, hshows, (events_of_turns hturns).preserves
    (P := fun a => a.ContentsOf ((turns.map Turn.call).flatMap Call.jobs)) ?_ ?_⟩
  · intro b e b' he hstep hb id js hjob
    rcases (hstep.job id).content hjob with ⟨js₀, hjob₀, hcontent⟩ | ⟨job, now, hq, rfl, hid, heq⟩
    · rw [← hcontent]
      exact hb id js₀ hjob₀
    · exact ⟨job, mem_jobs_of_insert hturns he, hq, hid, heq⟩
  · intro id js hjob
    cases hjob

omit [Prost] in
/-- At two points of a run, what is held under one id has one content. -/
theorem Image.ContentsOf.content_eq {calls calls' : List Call} {a' : Image}
    (h : a.ContentsOf (calls.flatMap Call.jobs))
    (h' : a'.ContentsOf ((calls ++ calls').flatMap Call.jobs)) (hadm : Admissible (calls ++ calls'))
    {js js' : JobState} (hjob : a.jobs id = some js) (hjob' : a'.jobs id = some js') :
    js'.content = js.content := by
  obtain ⟨job, hmem, hq, hid, hcontent⟩ := h id js hjob
  obtain ⟨job', hmem', hq', hid', hcontent'⟩ := h' id js' hjob'
  have hmem₁ : job ∈ (calls ++ calls').flatMap Call.jobs := by
    rw [List.flatMap_append]
    exact List.mem_append_left _ hmem
  obtain rfl := hadm.eq_of_id_eq hmem₁ hmem' (hid'.trans hid.symm)
  rw [hcontent, hcontent']

end Contents

end Sepp
